import PicoSched.Lib.Loop
import PicoSched.Model.TaskInfo

/-!
# The functions of `task_manager.c`

Each definition carries the name of the function it embeds.  Functions that
write through pointers take the memory and return it; the two stack types
share the push and pop bodies they share in the source.
-/

namespace PicoSched.TaskManager

open BoundedStack Loop

variable {cfg : Config}

/-! ## Stacks -/

/-- The body of `Push_task` and `Push_core`: a full stack drops the value. -/
def pushEntry {α : Type} {capacity : ℕ} (overflow : Message) (value : α)
    (stack : Stack α capacity) (memory : Memory cfg) :
    Stack α capacity × Memory cfg :=
  if stack.isFull then (stack, memory.log (.printf overflow))
  else (stack.push value, memory)

/-- The body of `Pop_task` and `Pop_core`: an empty stack yields NULL. -/
def popEntry {α : Type} {capacity : ℕ} (underflow : Message)
    (stack : Stack α capacity) (memory : Memory cfg) :
    Option α × Stack α capacity × Memory cfg :=
  if stack.isEmpty then (none, stack, memory.log (.printf underflow))
  else (stack.pop.1, stack.pop.2, memory)

def pushTask (task : TaskPtr cfg) (stack : TaskStack cfg)
    (memory : Memory cfg) : TaskStack cfg × Memory cfg :=
  pushEntry .taskStackOverflow task stack memory

def popTask (stack : TaskStack cfg) (memory : Memory cfg) :
    Option (TaskPtr cfg) × TaskStack cfg × Memory cfg :=
  popEntry .taskStackUnderflow stack memory

def pushCore (core : CorePtr cfg) (stack : CoreStack cfg)
    (memory : Memory cfg) : CoreStack cfg × Memory cfg :=
  let result := pushEntry .coreStackOverflow core stack.list memory
  ({ stack with list := result.1 }, result.2)

def popCore (stack : CoreStack cfg) (memory : Memory cfg) :
    Option (CorePtr cfg) × CoreStack cfg × Memory cfg :=
  let result := popEntry .coreStackUnderflow stack.list memory
  (result.1, { stack with list := result.2.1 }, result.2.2)

/-! ## Cores -/

def initCoreStack (stack : CoreStack cfg) : CoreStack cfg :=
  { stack with list := Stack.empty }

def initCoreStep (core : CorePtr cfg) (state : CoreStack cfg × Memory cfg) :
    Except Fault (CoreStack cfg × Memory cfg) :=
  .ok (pushCore core state.1 state.2)

def initCore (stack : CoreStack cfg) (memory : Memory cfg) :
    Except Fault (CoreStack cfg × Memory cfg) :=
  forAll initCoreStep (initCoreStack stack, memory)

/-- The scan runs down from the top cell and moves to a strictly smaller
load.  On an empty stack the result is the cell at index `-1`. -/
def getMinCore (stack : CoreStack cfg) (coreList : CorePtr cfg → CoreInfo) :
    Except Fault (CorePtr cfg) :=
  match stack.list.entries with
  | [] => .error .outOfBounds
  | first :: rest =>
      .ok (rest.foldl (fun least core =>
        if (coreList core).utilization < (coreList least).utilization then core
        else least) first)

/-! ## Tasks -/

def getLighttask (bound : ℚ) : ℚ := bound / (1 + bound)

/-- The assignment of a nonnegative `float` to a `uint16_t`: the fraction is
dropped. -/
def toUint16 (value : ℚ) : ℕ := ⌊value⌋₊ % 2 ^ 16

/-- `xTaskCreate` with the handle written to `my_ptr`.  `creates` gives the
result of every call; on failure the handle is left as it was. -/
def xTaskCreate (creates : ℕ → Option TaskHandle) (task : TaskPtr cfg)
    (memory : Memory cfg) : Memory cfg :=
  let info := memory.taskList task
  let result := creates memory.created
  let memory := { memory with created := memory.created + 1 }
  let memory := memory.log
    (.xTaskCreate task info.taskCode info.taskName info.priority result)
  memory.setTask task { info with myPtr := result <|> info.myPtr }

def initTaskStep (creates : ℕ → Option TaskHandle) (index : Fin cfg.numOfTask)
    (state : TaskStack cfg × Memory cfg) :
    Except Fault (TaskStack cfg × Memory cfg) :=
  let pushed := pushTask (cfg.original index) state.1 state.2
  match pushed.1.cell index with
  | none => .error .outOfBounds
  | some task =>
      let info := pushed.2.taskList task
      let utilization : ℚ := info.runtime / info.period
      let heavy :=
        if getLighttask cfg.utilizationBound < utilization then true
        else info.heavy
      let memory := pushed.2.setTask task { info with utilization, heavy }
      .ok (pushed.1, xTaskCreate creates task memory)

def initTask (creates : ℕ → Option TaskHandle) (memory : Memory cfg) :
    Except Fault (TaskStack cfg × Memory cfg) :=
  forAll (initTaskStep creates) (Stack.empty, memory)

def newTask (memory : Memory cfg) : Option (TaskPtr cfg) × Memory cfg :=
  if hslot : memory.currIdx < cfg.maxNumTasks then
    (some ⟨memory.currIdx, hslot⟩,
      { memory with currIdx := memory.currIdx + 1 })
  else (none, memory.log (.printf .noMoreNewTask))

/-- `task` becomes the body that fills `core`; `tail` takes the rest. -/
def taskSplit (creates : ℕ → Option TaskHandle) (task tail : TaskPtr cfg)
    (core : CorePtr cfg) (coreStack : CoreStack cfg) (stack : TaskStack cfg)
    (memory : Memory cfg) : TaskStack cfg × Memory cfg :=
  let memory := memory.log (.taskSplit task tail core)
  let origin := memory.taskList task
  let memory := memory.setTask tail { memory.taskList tail with
    taskName := origin.taskName
    period := origin.period
    priority := origin.priority }
  let utilization :=
    coreStack.utilizationBound - (memory.coreList core).utilization
  let memory := memory.setTask task { memory.taskList task with
    utilization
    runtime := toUint16 (utilization * origin.period) }
  let body := memory.taskList task
  let memory := memory.setTask tail { memory.taskList tail with
    utilization := origin.utilization - body.utilization
    runtime := toUint16 (origin.runtime - body.runtime)
    subnum := (body.subnum + 1) % 2 ^ 8
    dependency := true }
  let memory := xTaskCreate creates tail memory
  let memory := memory.setTask task { memory.taskList task with
    splittedPtr := (memory.taskList tail).myPtr }
  pushTask tail stack memory

def assignTask (task : TaskPtr cfg) (core : CorePtr cfg)
    (memory : Memory cfg) : Memory cfg :=
  let info := memory.coreList core
  let memory := memory.log
    (.assignTask task core (memory.taskList task).myPtr info.coreNum)
  memory.setCore core { info with
    utilization := info.utilization + (memory.taskList task).utilization }

/-- The sum over the cells of `indices`, added up from `sum`. -/
def lowerSum (stack : TaskStack cfg) (memory : Memory cfg) :
    List ℕ → ℚ → Except Fault ℚ
  | [], sum => .ok sum
  | index :: indices, sum =>
      match stack.cell index with
      | none => .error .outOfBounds
      | some task =>
          lowerSum stack memory indices
            (sum + (memory.taskList task).utilization)

def simpleTest (numOfLower : ℕ) (coreStack : CoreStack cfg)
    (stack : TaskStack cfg) (memory : Memory cfg) :
    Except Fault (Bool × Memory cfg) :=
  match lowerSum stack memory
      (List.range' (numOfLower + 1) (cfg.numOfTask - (numOfLower + 1))) 0 with
  | .error fault => .error fault
  | .ok sum =>
      if (coreStack.list.top : ℚ) * coreStack.utilizationBound < sum then
        .ok (false, memory.log (.printf (.heavyButAffordable (numOfLower + 1))))
      else .ok (true, memory)

end PicoSched.TaskManager
