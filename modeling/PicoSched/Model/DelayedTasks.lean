import PicoSched.Model.Kernel
import PicoSched.Model.KernelList
import PicoSched.Model.RunTask

/-!
# The timekeeping of the kernel

What `tasks.c` does with the delayed, pending ready and suspended lists and
with the tick count.  A task waits for time only: the event lists of queues and
the task notifications are left out, so an event list item is in the pending
ready list or in none.  Which core runs which task is the matter of the
dispatcher; any task may make the next call here.
-/

namespace PicoSched.DelayedTasks

open Kernel KernelList RunTask Transition

/-! ## State -/

/-- The list items of a task: `xStateListItem` and `xEventListItem`. -/
inductive Item (ι : Type*) where
  | state (task : ι)
  | event (task : ι)
  deriving DecidableEq

/-- The lists of `tasks.c`. -/
inductive ListName where
  | ready (priority : Fin configMaxPriorities)
  | delayed1
  | delayed2
  | pendingReady
  | waitingTermination
  | suspended
  deriving DecidableEq

structure State (ι : Type*) where
  memory : Memory (Item ι) ListName
  pxDelayedTaskList : ListName
  pxOverflowDelayedTaskList : ListName
  xTickCount : ℕ
  xNextTaskUnblockTime : ℕ
  xNumOfOverflows : ℕ
  uxSchedulerSuspended : ℕ
  xPendedTicks : ℕ

variable {ι : Type*} [DecidableEq ι]

/-- The list that the state list item of a task is in. -/
def State.stateList (state : State ι) (task : ι) : Option ListName :=
  state.memory.container (.item (.state task))

/-- The list that the event list item of a task is in. -/
def State.eventList (state : State ι) (task : ι) : Option ListName :=
  state.memory.container (.item (.event task))

def State.removeItem (item : Item ι) (state : State ι) : Option (State ι) :=
  (uxListRemove item state.memory).map fun result =>
    { state with memory := result.2 }

/-- The event list item is removed if it is in a list. -/
def State.removeEvent (task : ι) (state : State ι) : Option (State ι) :=
  if state.eventList task = none then some state
  else state.removeItem (.event task)

def State.insertEnd (list : ListName) (item : Item ι) (state : State ι) :
    State ι :=
  { state with memory := vListInsertEnd list item state.memory }

def State.insert (list : ListName) (item : Item ι) (state : State ι) :
    Option (State ι) :=
  (vListInsert list item state.memory).map fun memory =>
    { state with memory := memory }

/-! ## Lists and times -/

/-- `prvAddTaskToReadyList`. -/
def prvAddTaskToReadyList (priority : ι → Fin configMaxPriorities) (task : ι)
    (state : State ι) : State ι :=
  state.insertEnd (.ready (priority task)) (.state task)

def prvResetNextTaskUnblockTime (state : State ι) : State ι :=
  { state with
    xNextTaskUnblockTime :=
      if state.memory.numberOfItems state.pxDelayedTaskList = 0 then
        portMaxDelay
      else
        state.memory.itemValue
          (state.memory.links.next (.listEnd state.pxDelayedTaskList)) }

/-- `taskSWITCH_DELAYED_LISTS`. -/
def taskSwitchDelayedLists (state : State ι) : State ι :=
  prvResetNextTaskUnblockTime { state with
    pxDelayedTaskList := state.pxOverflowDelayedTaskList
    pxOverflowDelayedTaskList := state.pxDelayedTaskList
    xNumOfOverflows := (state.xNumOfOverflows + 1) % 2 ^ 32 }

def prvAddCurrentTaskToDelayedList (task : ι) (ticksToWait : ℕ)
    (canBlockIndefinitely : Bool) (state : State ι) : Option (State ι) :=
  match state.removeItem (.state task) with
  | none => none
  | some state =>
      if ticksToWait = portMaxDelay ∧ canBlockIndefinitely = true then
        some (state.insertEnd .suspended (.state task))
      else
        let timeToWake := (state.xTickCount + ticksToWait) % 2 ^ 32
        let state := { state with
          memory := state.memory.setItemValue (.item (.state task)) timeToWake }
        if timeToWake < state.xTickCount then
          state.insert state.pxOverflowDelayedTaskList (.state task)
        else
          (state.insert state.pxDelayedTaskList (.state task)).map fun state =>
            { state with
              xNextTaskUnblockTime :=
                if timeToWake < state.xNextTaskUnblockTime then timeToWake
                else state.xNextTaskUnblockTime }

/-! ## Ticks -/

/-- The tick count goes up; the delayed lists are switched when it wraps. -/
def countTick (state : State ι) : State ι :=
  let state := { state with xTickCount := (state.xTickCount + 1) % 2 ^ 32 }
  if state.xTickCount = 0 then taskSwitchDelayedLists state else state

section Ticks

variable (priority : ι → Fin configMaxPriorities)

/-- The `for` loop of `xTaskIncrementTick`.  `none` is a loop that does not end
within the fuel, or an access through a NULL pointer. -/
def unblockLoop (constTickCount : ℕ) : ℕ → State ι → Option (State ι)
  | 0, state =>
      if state.memory.numberOfItems state.pxDelayedTaskList = 0 then
        some { state with xNextTaskUnblockTime := portMaxDelay }
      else none
  | fuel + 1, state =>
      if state.memory.numberOfItems state.pxDelayedTaskList = 0 then
        some { state with xNextTaskUnblockTime := portMaxDelay }
      else
        match state.memory.links.next (.listEnd state.pxDelayedTaskList) with
        | .item (.state task) =>
            let itemValue := state.memory.itemValue (.item (.state task))
            if constTickCount < itemValue then
              some { state with xNextTaskUnblockTime := itemValue }
            else
              match state.removeItem (.state task) with
              | none => none
              | some state =>
                  match state.removeEvent task with
                  | none => none
                  | some state =>
                      unblockLoop constTickCount fuel
                        (prvAddTaskToReadyList priority task state)
        | _ => none

/-- The loop takes one step for each delayed task at most. -/
def xTaskIncrementTick (state : State ι) : Option (State ι) :=
  if state.uxSchedulerSuspended = 0 then
    let state := countTick state
    if state.xNextTaskUnblockTime ≤ state.xTickCount then
      unblockLoop priority state.xTickCount
        (state.memory.numberOfItems state.pxDelayedTaskList) state
    else some state
  else
    some { state with xPendedTicks := (state.xPendedTicks + 1) % 2 ^ 32 }

/-- The `while` loop of `xTaskResumeAll` over `xPendingReadyList`. -/
def pendingReadyLoop : ℕ → State ι → Option (State ι)
  | 0, state =>
      if state.memory.numberOfItems .pendingReady = 0 then some state else none
  | fuel + 1, state =>
      if state.memory.numberOfItems .pendingReady = 0 then some state
      else
        match state.memory.links.next (.listEnd .pendingReady) with
        | .item (.event task) =>
            match state.removeItem (.event task) with
            | none => none
            | some state =>
                match state.removeItem (.state task) with
                | none => none
                | some state =>
                    pendingReadyLoop fuel
                      (prvAddTaskToReadyList priority task state)
        | _ => none

/-- The `do` loop of `xTaskResumeAll` over the pended ticks. -/
def pendedTicksLoop : ℕ → State ι → Option (State ι)
  | 0, state => some state
  | pendedCounts + 1, state =>
      match xTaskIncrementTick priority state with
      | none => none
      | some state => pendedTicksLoop pendedCounts state

/-- `xTaskResumeAll` after a call of `vTaskSuspendAll`; there are always idle
tasks. -/
def xTaskResumeAll (state : State ι) : Option (State ι) :=
  let state :=
    { state with uxSchedulerSuspended := state.uxSchedulerSuspended - 1 }
  if state.uxSchedulerSuspended = 0 then
    let pending := state.memory.numberOfItems .pendingReady
    match pendingReadyLoop priority pending state with
    | none => none
    | some state =>
        let state :=
          if pending = 0 then state else prvResetNextTaskUnblockTime state
        (pendedTicksLoop priority state.xPendedTicks state).map fun state =>
          { state with xPendedTicks := 0 }
  else some state

end Ticks

def vTaskSuspendAll (state : State ι) : State ι :=
  { state with
    uxSchedulerSuspended := (state.uxSchedulerSuspended + 1) % 2 ^ 32 }

/-! ## The functions of the tasks -/

/-- What `xTaskDelayUntil` does while the scheduler is suspended, with the new
value of `*pxPreviousWakeTime`. -/
def delayUntilBlock (task : ι) (previousWakeTime timeIncrement : ℕ)
    (state : State ι) : Option (ℕ × State ι) :=
  let result := xTaskDelayUntil state.xTickCount previousWakeTime timeIncrement
  if result.2 then
    (prvAddCurrentTaskToDelayedList task
      ((result.1 + 2 ^ 32 - state.xTickCount) % 2 ^ 32) false state).map
        fun state => (result.1, state)
  else some (result.1, state)

def vTaskSuspend (task : ι) (state : State ι) : Option (State ι) :=
  match state.removeItem (.state task) with
  | none => none
  | some state =>
      (state.removeEvent task).map fun state =>
        prvResetNextTaskUnblockTime (state.insertEnd .suspended (.state task))

def prvTaskIsTaskSuspended (task : ι) (state : State ι) : Bool :=
  state.stateList task = some .suspended ∧
    state.eventList task ≠ some .pendingReady ∧ state.eventList task = none

section Resume

variable (priority : ι → Fin configMaxPriorities)

def vTaskResume (task : ι) (state : State ι) : Option (State ι) :=
  if prvTaskIsTaskSuspended task state then
    (state.removeItem (.state task)).map (prvAddTaskToReadyList priority task)
  else some state

def xTaskResumeFromISR (task : ι) (state : State ι) : Option (State ι) :=
  if prvTaskIsTaskSuspended task state then
    if state.uxSchedulerSuspended = 0 then
      (state.removeItem (.state task)).map (prvAddTaskToReadyList priority task)
    else some (state.insertEnd .pendingReady (.event task))
  else some state

/-- `eTaskGetState` returns `eBlocked`. -/
def isBlocked (task : ι) (state : State ι) : Bool :=
  state.eventList task ≠ some .pendingReady ∧
    (state.stateList task = some state.pxDelayedTaskList ∨
      state.stateList task = some state.pxOverflowDelayedTaskList ∨
        state.stateList task = some .suspended ∧ state.eventList task ≠ none)

/-- What `xTaskAbortDelay` does while the scheduler is suspended. -/
def abortDelayBlock (task : ι) (state : State ι) : Option (State ι) :=
  if isBlocked task state then
    match state.removeItem (.state task) with
    | none => none
    | some state =>
        (state.removeEvent task).map (prvAddTaskToReadyList priority task)
  else some state

end Resume

/-- `vTaskDelete`.  A task that runs, or is to yield, is left to the idle
task. -/
def vTaskDelete (task : ι) (isRunningOrYielding : Bool) (state : State ι) :
    Option (State ι) :=
  match state.removeItem (.state task) with
  | none => none
  | some state =>
      (state.removeEvent task).map fun state =>
        if isRunningOrYielding then
          state.insertEnd .waitingTermination (.state task)
        else prvResetNextTaskUnblockTime state

/-! ## Runs -/

inductive Action (ι : Type*) where
  /-- A task is created. -/
  | create (task : ι)
  | tick
  | suspendAll
  | resumeAll
  /-- `vTaskDelay` while it has suspended the scheduler. -/
  | delay (task : ι) (ticksToDelay : ℕ)
  /-- `xTaskDelayUntil` while it has suspended the scheduler. -/
  | delayUntil (task : ι) (previousWakeTime timeIncrement : ℕ)
  /-- A task blocks for no event and with no timeout. -/
  | block (task : ι)
  | suspend (task : ι)
  | resume (task : ι)
  | resumeFromISR (task : ι)
  /-- `xTaskAbortDelay` while it has suspended the scheduler. -/
  | abortDelay (task : ι)
  | delete (task : ι) (isRunningOrYielding : Bool)
  deriving DecidableEq

/-- The tasks and the memory before the scheduler starts. -/
structure Setup (ι : Type*) [DecidableEq ι] where
  priority : ι → Fin configMaxPriorities
  lists : KernelList.Setup (Item ι) ListName

/-- The task runs and has suspended the scheduler. -/
def Setup.Calls (setup : Setup ι) (task : ι) (state : State ι) : Prop :=
  state.stateList task = some (.ready (setup.priority task)) ∧
    state.uxSchedulerSuspended ≠ 0

instance (setup : Setup ι) (task : ι) (state : State ι) :
    Decidable (setup.Calls task state) :=
  inferInstanceAs (Decidable (_ ∧ _))

def step (setup : Setup ι) (state : State ι) : Action ι → Option (State ι)
  | .create task =>
      if state.stateList task = none ∧ state.eventList task = none then
        some (prvAddTaskToReadyList setup.priority task state)
      else none
  | .tick => xTaskIncrementTick setup.priority state
  | .suspendAll => some (vTaskSuspendAll state)
  | .resumeAll =>
      if state.uxSchedulerSuspended ≠ 0 then
        xTaskResumeAll setup.priority state
      else none
  | .delay task ticksToDelay =>
      if setup.Calls task state ∧ 0 < ticksToDelay ∧ ticksToDelay < 2 ^ 32 then
        prvAddCurrentTaskToDelayedList task ticksToDelay false state
      else none
  | .delayUntil task previousWakeTime timeIncrement =>
      if setup.Calls task state then
        (delayUntilBlock task previousWakeTime timeIncrement state).map Prod.snd
      else none
  | .block task =>
      if setup.Calls task state then
        prvAddCurrentTaskToDelayedList task portMaxDelay true state
      else none
  | .suspend task => vTaskSuspend task state
  | .resume task => vTaskResume setup.priority task state
  | .resumeFromISR task => xTaskResumeFromISR setup.priority task state
  | .abortDelay task =>
      if state.uxSchedulerSuspended ≠ 0 then
        abortDelayBlock setup.priority task state
      else none
  | .delete task isRunningOrYielding =>
      vTaskDelete task isRunningOrYielding state

/-- The kernel after `prvInitialiseTaskLists` and `vTaskStartScheduler`. -/
def machine (setup : Setup ι) : Machine (State ι) (Action ι) where
  start := {
    memory := initialise setup.lists.lists setup.lists.memory
    pxDelayedTaskList := .delayed1
    pxOverflowDelayedTaskList := .delayed2
    xTickCount := 0
    xNextTaskUnblockTime := portMaxDelay
    xNumOfOverflows := 0
    uxSchedulerSuspended := 0
    xPendedTicks := 0 }
  step := step setup

/-- The counters do not wrap: fewer than `2 ^ 32` ticks are pended and fewer
than `2 ^ 32` calls of `vTaskSuspendAll` are open. -/
def Fits (state : State ι) : Action ι → Prop
  | .tick => state.xPendedTicks + 1 < 2 ^ 32
  | .suspendAll => state.uxSchedulerSuspended + 1 < 2 ^ 32
  | _ => True

instance (state : State ι) (action : Action ι) :
    Decidable (Fits state action) :=
  match action with
  | .tick => inferInstanceAs (Decidable (_ < _))
  | .suspendAll => inferInstanceAs (Decidable (_ < _))
  | .create _ | .resumeAll | .delay .. | .delayUntil .. | .block _
  | .suspend _ | .resume _ | .resumeFromISR _ | .abortDelay _ | .delete .. =>
      inferInstanceAs (Decidable True)

end PicoSched.DelayedTasks
