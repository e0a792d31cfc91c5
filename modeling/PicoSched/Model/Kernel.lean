import Mathlib.Data.List.FinRange
import PicoSched.Lib.Transition
import PicoSched.Model.TaskInfo

/-!
# The dispatcher of the kernel

What `tasks.c` does with the ready lists when it is compiled with the constants
of `FreeRTOSConfig.h`: several cores, core affinity, multiple priorities
running at a time, preemption and time slicing.  Asserts are compiled out.
-/

namespace PicoSched.Kernel

open TaskManager Transition

/-! ## Task creation -/

/-- `configMAX_PRIORITIES`. -/
def configMaxPriorities : ℕ := 5

/-- `tskNO_AFFINITY`. -/
def tskNoAffinity : ℕ := 2 ^ 32 - 1

/-- The fields of a control block the dispatcher reads. -/
structure Tcb where
  uxPriority : ℕ
  uxCoreAffinityMask : ℕ
  isIdle : Bool
  deriving DecidableEq

/-- A priority that is too large is cut to the largest one. -/
def prvInitialiseNewTask (uxPriority : ℕ) : Tcb where
  uxPriority :=
    if configMaxPriorities ≤ uxPriority then configMaxPriorities - 1
    else uxPriority
  uxCoreAffinityMask := tskNoAffinity
  isIdle := false

/-- The control block of a handle after calls of `xTaskCreate` and
`vTaskCoreAffinitySet`, the latest call first. -/
def tcbAfter {cfg : Config} (others : TaskHandle → Tcb) :
    List (Call cfg) → TaskHandle → Tcb
  | [], handle => others handle
  | .xTaskCreate _ _ _ priority (some created) :: calls, handle =>
      if handle = created then prvInitialiseNewTask priority
      else tcbAfter others calls handle
  | .assignTask _ _ (some assigned) coreNum :: calls, handle =>
      if handle = assigned then
        { tcbAfter others calls handle with uxCoreAffinityMask := coreNum }
      else tcbAfter others calls handle
  | _ :: calls, handle => tcbAfter others calls handle

/-- The tasks that exist when the scheduler is started, in the order of their
creation, with the idle task each core starts in.  The idle tasks have the
lowest priority and no affinity. -/
structure Setup (cores : ℕ) where
  created : List TaskHandle
  tcb : TaskHandle → Tcb
  idle : Fin cores → TaskHandle
  idle_injective : Function.Injective idle
  idle_created : ∀ core, idle core ∈ created
  idle_priority : ∀ core, (tcb (idle core)).uxPriority = 0
  idle_isIdle : ∀ core, (tcb (idle core)).isIdle = true
  idle_mask : ∀ core (other : Fin cores),
    (tcb (idle core)).uxCoreAffinityMask.testBit other = true

/-! ## State -/

/-- `xTaskRunState`. -/
inductive RunState (cores : ℕ) where
  | notRunning
  | running (core : Fin cores)
  | scheduledToYield
  deriving DecidableEq

structure State (cores : ℕ) where
  /-- `pxReadyTasksLists`. -/
  ready : ℕ → List TaskHandle
  /-- `uxTopReadyPriority`. -/
  topReady : ℕ
  /-- `pxCurrentTCBs`. -/
  current : Fin cores → TaskHandle
  /-- `xTaskRunState`. -/
  runState : TaskHandle → RunState cores
  /-- `xYieldPendings`. -/
  yieldPending : Fin cores → Bool

variable {cores : ℕ}

/-- `taskTASK_IS_RUNNING`. -/
def State.isRunning (state : State cores) (task : TaskHandle) : Bool :=
  match state.runState task with
  | .running _ => true
  | _ => false

/-- The priority of a running task; idle tasks count one less. -/
def Setup.corePriority (setup : Setup cores) (task : TaskHandle) : ℤ :=
  if (setup.tcb task).isIdle then ((setup.tcb task).uxPriority : ℤ) - 1
  else (setup.tcb task).uxPriority

/-- The bit of a core in the affinity mask of a task. -/
def Setup.allows (setup : Setup cores) (task : TaskHandle) (core : Fin cores) :
    Bool :=
  (setup.tcb task).uxCoreAffinityMask.testBit core

/-! ## Yields -/

/-- `prvYieldCore`, called on the core `here`. -/
def prvYieldCore (here core : Fin cores) (state : State cores) : State cores :=
  if core = here then
    { state with yieldPending := Function.update state.yieldPending core true }
  else if state.runState (state.current core) ≠ .scheduledToYield then
    { state with
      runState := Function.update state.runState (state.current core)
        .scheduledToYield }
  else state

/-- An iteration of the search in `prvYieldForTask`. -/
def preemptStep (setup : Setup cores) (state : State cores) (task : TaskHandle)
    (best : ℤ × Option (Fin cores)) (core : Fin cores) :
    ℤ × Option (Fin cores) :=
  if state.isRunning (state.current core) ∧ state.yieldPending core = false ∧
      setup.corePriority (state.current core) ≤ best.1 ∧
      setup.allows task core then
    (setup.corePriority (state.current core), some core)
  else best

def prvYieldForTask (setup : Setup cores) (here : Fin cores)
    (task : TaskHandle) (state : State cores) : State cores :=
  if state.isRunning task then state
  else
    match ((List.finRange cores).foldl (preemptStep setup state task)
        (((setup.tcb task).uxPriority : ℤ) - 1, none)).2 with
    | none => state
    | some core => prvYieldCore here core state

/-! ## Selection -/

/-- The running task of the core goes to the end of its ready list. -/
def rotate (setup : Setup cores) (core : Fin cores) (state : State cores) :
    State cores :=
  let task := state.current core
  let priority := (setup.tcb task).uxPriority
  if task ∈ state.ready priority then
    { state with
      ready := Function.update state.ready priority
        ((state.ready priority).erase task ++ [task]) }
  else state

/-- The test of an entry of a ready list. -/
def selectable (setup : Setup cores) (core : Fin cores) (state : State cores)
    (task : TaskHandle) : Bool :=
  (state.runState task = .notRunning ∨ task = state.current core) ∧
    setup.allows task core

/-- The `while` loop of `prvSelectHighestPriorityTask` from a priority on, with
`xDecrementTopPriority` and `uxTopReadyPriority`. -/
def selectLoop (setup : Setup cores) (core : Fin cores) (state : State cores) :
    ℕ → Bool → ℕ → Option TaskHandle × ℕ
  | 0, decrement, top =>
      match state.ready 0 with
      | [] => (none, if decrement then top - 1 else top)
      | task :: tasks =>
          ((task :: tasks).find? (selectable setup core state), top)
  | priority + 1, decrement, top =>
      match state.ready (priority + 1) with
      | [] =>
          selectLoop setup core state priority decrement
            (if decrement then top - 1 else top)
      | task :: tasks =>
          match (task :: tasks).find? (selectable setup core state) with
          | some task => (some task, top)
          | none => selectLoop setup core state priority false top

/-- An iteration of the search for another core for the evicted task. -/
def evictStep (setup : Setup cores) (here : Fin cores) (state : State cores)
    (previous : TaskHandle) (best : ℤ × Option (Fin cores)) (core : Fin cores) :
    ℤ × Option (Fin cores) :=
  if setup.allows previous core ∧
      (setup.allows previous here = true →
        setup.allows (state.current here) core = false) ∧
      setup.corePriority (state.current core) < best.1 ∧
      state.isRunning (state.current core) ∧
      state.yieldPending core = false then
    (setup.corePriority (state.current core), some core)
  else best

/-- The end of `prvSelectHighestPriorityTask`: an evicted task that is still
ready may preempt another core. -/
def yieldForEvicted (setup : Setup cores) (here : Fin cores)
    (previous : TaskHandle) (state : State cores) : State cores :=
  if previous ∈ state.ready (setup.tcb previous).uxPriority then
    match ((List.finRange cores).reverse.foldl
        (evictStep setup here state previous)
        (setup.corePriority previous, none)).2 with
    | none => state
    | some core => prvYieldCore here core state
  else state

def prvSelectHighestPriorityTask (setup : Setup cores) (core : Fin cores)
    (state : State cores) : State cores :=
  let state := rotate setup core state
  let selected :=
    selectLoop setup core state state.topReady true state.topReady
  let state := { state with topReady := selected.2 }
  match selected.1 with
  | none => state
  | some task =>
      let previous := state.current core
      if state.runState task = .notRunning then
        yieldForEvicted setup core previous
          { state with
            current := Function.update state.current core task
            runState := Function.update
              (Function.update state.runState previous .notRunning) task
              (.running core) }
      else
        { state with
          runState := Function.update state.runState task (.running core) }

def vTaskSwitchContext (setup : Setup cores) (core : Fin cores)
    (state : State cores) : State cores :=
  prvSelectHighestPriorityTask setup core
    { state with yieldPending := Function.update state.yieldPending core false }

/-! ## Events -/

/-- `prvAddTaskToReadyList`. -/
def prvAddTaskToReadyList (setup : Setup cores) (task : TaskHandle)
    (state : State cores) : State cores :=
  let priority := (setup.tcb task).uxPriority
  { state with
    topReady := if state.topReady < priority then priority else state.topReady
    ready := Function.update state.ready priority
      (state.ready priority ++ [task]) }

/-- The part of `xTaskIncrementTick` that shares the processor among tasks of
one priority. -/
def timeSlice (setup : Setup cores) (here : Fin cores) (state : State cores) :
    State cores :=
  let state := { state with
    yieldPending := fun core => state.yieldPending core ||
      decide (1 < (state.ready
        (setup.tcb (state.current core)).uxPriority).length) }
  (List.finRange cores).foldl (fun state core =>
    if state.yieldPending core = true ∧ core ≠ here then
      prvYieldCore here core state
    else state) state

inductive Action (cores : ℕ) where
  /-- A delay ends or a suspended task is resumed, by code on `here`. -/
  | wake (here : Fin cores) (task : TaskHandle)
  /-- The running task of the core delays or suspends itself. -/
  | block (core : Fin cores)
  /-- `taskYIELD` on the core. -/
  | yield (core : Fin cores)
  /-- The tick interrupt, taken on `here`. -/
  | tick (here : Fin cores)
  /-- The core serves its pending yield. -/
  | switch (core : Fin cores)
  deriving DecidableEq

def step (setup : Setup cores) (state : State cores) :
    Action cores → Option (State cores)
  | .wake here task =>
      if task ∈ setup.created ∧
          task ∉ state.ready (setup.tcb task).uxPriority then
        some (prvYieldForTask setup here task
          (prvAddTaskToReadyList setup task state))
      else none
  | .block core =>
      let task := state.current core
      let priority := (setup.tcb task).uxPriority
      if task ∈ state.ready priority ∧ (setup.tcb task).isIdle = false then
        some { state with
          ready := Function.update state.ready priority
            ((state.ready priority).erase task)
          yieldPending := Function.update state.yieldPending core true }
      else none
  | .yield core =>
      some { state with
        yieldPending := Function.update state.yieldPending core true }
  | .tick here => some (timeSlice setup here state)
  | .switch core => some (vTaskSwitchContext setup core state)

/-- The run state of a task when the scheduler starts. -/
def Setup.startRunState (setup : Setup cores) (task : TaskHandle) :
    RunState cores :=
  match (List.finRange cores).find? fun core => setup.idle core = task with
  | some core => .running core
  | none => .notRunning

/-- The kernel when the scheduler starts: every task is ready, and the cores
are in their idle tasks, which yield first. -/
def machine (setup : Setup cores) : Machine (State cores) (Action cores) where
  start := {
    ready := fun priority => setup.created.filter fun task =>
      (setup.tcb task).uxPriority = priority
    topReady :=
      (setup.created.map fun task => (setup.tcb task).uxPriority).foldr max 0
    current := setup.idle
    runState := setup.startRunState
    yieldPending := fun _ => true }
  step := step setup

/-- A yield of the core is still to be served. -/
def State.pending (state : State cores) (core : Fin cores) : Prop :=
  state.yieldPending core = true ∨
    state.runState (state.current core) = .scheduledToYield

end PicoSched.Kernel
