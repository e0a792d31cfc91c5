import PicoSched.Model.Heap
import PicoSched.Model.TaskInfo

/-!
# Memory for tasks

`prvCreateTask` gets the stack of a task and its TCB from the heap.  The handle
of the task is the address of the TCB.  How large a TCB is depends on the
compiler.
-/

namespace PicoSched.Heap

open TaskManager

variable (layout : Layout) (sizeOfTcb : ℕ)

/-- `STACK_SIZE`. -/
def stackSize : ℕ := 256

/-- `sizeof( StackType_t )`. -/
def sizeOfStackType : ℕ := 4

/-- `vPortFree` with nothing in between. -/
def vPortFree (pv : ℕ) (state : State) : Option State :=
  match vPortFreeRelease pv state with
  | none => some state
  | some state => vPortFreeInsert layout pv state

/-- The handle, if there was memory for the task, and the heap. -/
def prvCreateTask (uxStackDepth : ℕ) (state : State) :
    Option (Option TaskHandle × State) :=
  (pvPortMalloc layout (uxStackDepth * sizeOfStackType) state).bind
    fun (pxStack, state) =>
      if pxStack ≠ 0 then
        (pvPortMalloc layout sizeOfTcb state).bind fun (pxNewTCB, state) =>
          if pxNewTCB ≠ 0 then some (some pxNewTCB, state)
          else (vPortFree layout pxStack state).map fun state => (none, state)
      else some (none, state)

/-- The heap after a number of calls of `xTaskCreate`. -/
def heapAfter (memory : ℕ → BlockLink) : ℕ → Option State
  | 0 => some ⟨memory, 0, 0, 0, 0, 0⟩
  | count + 1 =>
      (heapAfter memory count).bind fun state =>
        (prvCreateTask layout sizeOfTcb stackSize state).map Prod.snd

/-- The calls of `xTaskCreate` in `init_task` and `Task_split`.  `main` has
created `MonitorTask` before. -/
def creates (memory : ℕ → BlockLink) (call : ℕ) : Option TaskHandle :=
  (heapAfter layout sizeOfTcb memory (call + 1)).bind fun state =>
    (prvCreateTask layout sizeOfTcb stackSize state).bind Prod.fst

end PicoSched.Heap
