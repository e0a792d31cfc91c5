import PicoSched.Model.DelayedTasks

/-!
# The program on the kernel

The threads of `main.c` at the grain of their kernel calls.  A thread runs while
its task is in the ready list; a delay suspends the scheduler, moves the task
into a delayed list and resumes the scheduler, and ticks and other threads may
come in between.  All times are those of the 32-bit tick count.
-/

namespace PicoSched.Firmware

open DelayedTasks RunTask TaskManager Transition

/-- The stages of `vTaskDelay` and `xTaskDelayUntil`. -/
inductive Phase where
  /-- Before `vTaskSuspendAll`. -/
  | before
  /-- The scheduler is suspended. -/
  | suspended
  /-- Before `xTaskResumeAll`. -/
  | listed
  deriving DecidableEq

inductive Point where
  /-- The first line of the `vTask` function. -/
  | entry
  /-- In `vTaskDelay(pdMS_TO_TICKS(sync_R))`. -/
  | delay (phase : Phase)
  /-- The first line of `run_task`. -/
  | call
  /-- Before `vTaskSuspend`. -/
  | suspend
  /-- Before `Periodic_Job`. -/
  | job
  /-- The test of the `for` loop, with the value of `i`. -/
  | loop (i : ℕ)
  /-- The `while` loop of an iteration. -/
  | spin (i counter : ℕ)
  /-- The second deadline check. -/
  | recheck
  /-- `Periodic_Job` has returned `false`. -/
  | failed
  /-- `while(true)`. -/
  | hang
  /-- `Periodic_Job` has returned `true`. -/
  | resume
  /-- In `vTaskDelayUntil`. -/
  | delayUntil (phase : Phase)
  deriving DecidableEq

/-- The tick counts at which a thread started and at which its jobs were entered
and finished, for the statements about runs; the program does not read it. -/
structure Jobs where
  start : Option ℕ
  entered : List ℕ
  finished : List ℕ
  deriving DecidableEq

/-- The local variables of a thread, and its jobs so far. -/
structure Thread where
  point : Point
  lastRequestTime : ℕ
  deadline : ℕ
  jobs : Jobs
  deriving DecidableEq

/-- What a step does outside the thread. -/
inductive Effect where
  | none
  | overflow
  | kernel (action : DelayedTasks.Action TaskHandle)
  deriving DecidableEq

/-- One step of the thread with the task `handle` and the record `task` at a
tick count. -/
def runThread (handle : TaskHandle) (task : TaskInfo) (tick : ℕ)
    (thread : Thread) : Option (Thread × Effect) :=
  match thread.point with
  | .entry =>
      some ({ thread with
        point := .delay .before
        lastRequestTime := tick
        jobs := { thread.jobs with start := some tick } }, .none)
  | .delay .before =>
      some ({ thread with point := .delay .suspended }, .kernel .suspendAll)
  | .delay .suspended =>
      some ({ thread with point := .delay .listed },
        .kernel (.delay handle (msToTicks syncR)))
  | .delay .listed =>
      some ({ thread with point := .call }, .kernel .resumeAll)
  | .call =>
      some ({ thread with
        point := if task.dependency then .suspend else .job
        deadline := (thread.lastRequestTime + task.period) % 2 ^ 32 }, .none)
  | .suspend =>
      some ({ thread with point := .job }, .kernel (.suspend handle))
  | .job =>
      let endTick := (tick + task.runtime) % 2 ^ 32
      some ({ thread with
        point := if thread.deadline % 2 ^ 16 < endTick then .failed
          else .loop 0
        jobs := { thread.jobs with
          entered := thread.jobs.entered ++ [tick] } }, .none)
  | .loop i =>
      some ({ thread with
        point := if i < task.runtime then .spin i ((tick + 1) % 2 ^ 32)
          else .recheck }, .none)
  | .spin i counter =>
      if tick < counter then none
      else some ({ thread with point := .loop (i + 1) }, .none)
  | .recheck =>
      if thread.deadline % 2 ^ 16 < tick then
        some ({ thread with point := .failed }, .none)
      else
        some ({ thread with
          point := .resume
          jobs := { thread.jobs with
            finished := thread.jobs.finished ++ [tick] } }, .none)
  | .failed => some ({ thread with point := .hang }, .overflow)
  | .hang => none
  | .resume =>
      some ({ thread with point := .delayUntil .before },
        match task.splittedPtr with
        | none => .none
        | some successor => .kernel (.resume successor))
  | .delayUntil .before =>
      some ({ thread with point := .delayUntil .suspended },
        .kernel .suspendAll)
  | .delayUntil .suspended =>
      some ({ thread with
        point := .delayUntil .listed
        lastRequestTime :=
          (xTaskDelayUntil tick thread.lastRequestTime task.period).1 },
        .kernel (.delayUntil handle thread.lastRequestTime task.period))
  | .delayUntil .listed =>
      some ({ thread with point := .call }, .kernel .resumeAll)

inductive MonitorPoint where
  | entry
  /-- In `vTaskDelay(lcm_ticks + 1)`. -/
  | delay (phase : Phase)
  /-- Before the verdict. -/
  | verdict
  /-- The verdict is printed; `i` of the loop that deletes the tasks. -/
  | delete (allTasksSchedulable : Bool) (i : ℕ)
  deriving DecidableEq

structure Setup where
  tasks : TaskSet
  kernel : DelayedTasks.Setup TaskHandle
  /-- The task of `MonitorTask`. -/
  monitor : TaskHandle
  /-- `my_ptr` of the entries of `task_list`. -/
  myPtr : List (Option TaskHandle)
  distinct : (monitor :: tasks.handles).Nodup

/-- The program does not read `ticks`, the ticks that have occurred. -/
structure State where
  kernel : DelayedTasks.State TaskHandle
  schedulable : Bool
  thread : TaskHandle → Thread
  monitor : MonitorPoint
  ticks : ℕ

/-- A step of `MonitorTask`.  A task that it deletes may run on the other
core. -/
def runMonitor (setup : Setup) (isRunningOrYielding : Bool) (state : State) :
    MonitorPoint × Effect :=
  let ticksToDelay := (setup.tasks.lcmTicks + 1) % 2 ^ 32
  match state.monitor with
  | .entry =>
      (if ticksToDelay = 0 then .verdict else .delay .before, .none)
  | .delay .before => (.delay .suspended, .kernel .suspendAll)
  | .delay .suspended =>
      (.delay .listed, .kernel (.delay setup.monitor ticksToDelay))
  | .delay .listed => (.verdict, .kernel .resumeAll)
  | .verdict => (.delete state.schedulable 0, .none)
  | .delete allTasksSchedulable i =>
      (.delete allTasksSchedulable (i + 1),
        match setup.myPtr[i]? with
        | some (some handle) => .kernel (.delete handle isRunningOrYielding)
        -- a NULL handle is the calling task, and so is the last call
        | _ => .kernel (.delete setup.monitor true))

inductive Action where
  | tick
  | run (handle : TaskHandle)
  | monitor (isRunningOrYielding : Bool)
  deriving DecidableEq

/-- The task is ready to run.  While a thread has the scheduler suspended it
goes on in any case. -/
def Setup.canRun (setup : Setup) (state : State) (handle : TaskHandle)
    (isListed : Bool) : Prop :=
  isListed = true ∨
    state.kernel.stateList handle = some (.ready (setup.kernel.priority handle))

instance (setup : Setup) (state : State) (handle : TaskHandle)
    (isListed : Bool) : Decidable (setup.canRun state handle isListed) :=
  inferInstanceAs (Decidable (_ ∨ _))

def Point.isListed : Point → Bool
  | .delay .listed | .delayUntil .listed => true
  | _ => false

def MonitorPoint.isListed : MonitorPoint → Bool
  | .delay .listed => true
  | _ => false

def State.setThread (handle : TaskHandle) (thread : Thread) (state : State) :
    State :=
  { state with thread := Function.update state.thread handle thread }

def applyEffect (setup : Setup) (state : State) : Effect → Option State
  | .none => some state
  | .overflow => some { state with schedulable := false }
  | .kernel action =>
      (DelayedTasks.step setup.kernel state.kernel action).map fun kernel =>
        { state with kernel := kernel }

def step (setup : Setup) (state : State) : Action → Option State
  | .tick =>
      applyEffect setup { state with ticks := state.ticks + 1 } (.kernel .tick)
  | .run handle =>
      let thread := state.thread handle
      if handle ∈ setup.tasks.handles ∧
          setup.canRun state handle thread.point.isListed then
        match runThread handle (setup.tasks.info handle)
            state.kernel.xTickCount thread with
        | none => none
        | some (thread, effect) =>
            applyEffect setup (state.setThread handle thread) effect
      else none
  | .monitor isRunningOrYielding =>
      if setup.canRun state setup.monitor state.monitor.isListed then
        let (monitor, effect) := runMonitor setup isRunningOrYielding state
        applyEffect setup { state with monitor := monitor } effect
      else none

/-- The tasks are created before the scheduler starts. -/
def machine (setup : Setup) : Machine State Action where
  start := {
    kernel := (setup.monitor :: setup.tasks.handles).foldl
      (fun kernel handle =>
        prvAddTaskToReadyList setup.kernel.priority handle kernel)
      (DelayedTasks.machine setup.kernel).start
    schedulable := true
    thread := fun _ => ⟨.entry, 0, 0, ⟨none, [], []⟩⟩
    monitor := .entry
    ticks := 0 }
  step := step setup

/-- The counters of the kernel do not wrap. -/
def Fits (state : State) (_ : Action) : Prop :=
  state.kernel.xPendedTicks + 1 < 2 ^ 32 ∧
    state.kernel.uxSchedulerSuspended + 1 < 2 ^ 32

instance (state : State) (action : Action) : Decidable (Fits state action) :=
  inferInstanceAs (Decidable (_ ∧ _))

end PicoSched.Firmware
