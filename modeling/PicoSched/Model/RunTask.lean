import PicoSched.Lib.Transition
import PicoSched.Model.TaskInfo

/-!
# The running program

What the threads do once the scheduler has started: the prologue and the
endless loop of a `vTask` function with `run_task` and `Periodic_Job` inside
it, and `MonitorTask`.  Any thread may take the next step and the tick counter
may advance at any moment, so every preemption pattern is a run.
-/

namespace PicoSched.RunTask

open TaskManager Transition

/-! ## Ticks -/

/-- `xTaskGetTickCount` after `now` ticks: the counter has 32 bits. -/
def tickCount (now : ℕ) : ℕ := now % 2 ^ 32

/-- `pdMS_TO_TICKS` at a `configTICK_RATE_HZ` of 100. -/
def msToTicks (ms : ℕ) : ℕ := ms * 100 / 1000 % 2 ^ 32

/-- `sync_R`. -/
def syncR : ℕ := 10

/-- The tick at which a delay of `ticks` ends. -/
def delayedUntil (now ticks : ℕ) : ℕ := now + ticks % 2 ^ 32

/-- The new value of `*pxPreviousWakeTime` and `xShouldDelay`. -/
def xTaskDelayUntil (constTickCount previousWakeTime timeIncrement : ℕ) :
    ℕ × Bool :=
  let timeToWake := (previousWakeTime + timeIncrement) % 2 ^ 32
  if constTickCount < previousWakeTime then
    (timeToWake,
      decide (timeToWake < previousWakeTime ∧ constTickCount < timeToWake))
  else
    (timeToWake,
      decide (timeToWake < previousWakeTime ∨ constTickCount < timeToWake))

/-! ## Threads -/

/-- Where a thread stands. -/
inductive Point where
  /-- The first line of the `vTask` function. -/
  | entry
  /-- Before `vTaskDelay(pdMS_TO_TICKS(sync_R))`. -/
  | syncDelay
  /-- In the delayed list until a tick, then at the next call of `run_task`. -/
  | delayed (wake : ℕ)
  /-- The first line of `run_task`. -/
  | call
  /-- Before `vTaskSuspend`. -/
  | suspend
  /-- In the suspended list. -/
  | suspended
  /-- Before `Periodic_Job`. -/
  | job
  /-- The test of the `for` loop, with the value of `i`. -/
  | loop (i : ℕ)
  /-- The `while` loop of an iteration. -/
  | spin (i counter : ℕ)
  /-- The second deadline check. -/
  | recheck
  /-- `Periodic_Job` has returned `false`. -/
  | failed
  /-- `while(true)`. -/
  | hang
  /-- `Periodic_Job` has returned `true`. -/
  | resume
  /-- Before `vTaskDelayUntil`. -/
  | delayUntil
  deriving DecidableEq

/-- What a thread has done so far, for the statements about runs; the program
does not read it.  Entry `n` of a list belongs to job `n`. -/
structure History where
  /-- The tick first stored in `LastRequestTime`. -/
  start : Option ℕ
  /-- The ticks at which `Periodic_Job` was entered. -/
  entered : List ℕ
  /-- The ticks at which the jobs passed the last check of `Periodic_Job`. -/
  finished : List ℕ
  /-- The calls of `vTaskResume`. -/
  resumes : ℕ
  /-- The times the thread was taken off the suspended list. -/
  releases : ℕ
  deriving DecidableEq

structure Thread where
  point : Point
  lastRequestTime : ℕ
  deadline : ℕ
  history : History
  deriving DecidableEq

def Thread.created : Thread := ⟨.entry, 0, 0, ⟨none, [], [], 0, 0⟩⟩

/-- What a step of a thread does outside the thread. -/
inductive Effect where
  | none
  | overflow
  | resume (handle : TaskHandle)
  deriving DecidableEq

/-- The call `vTaskDelayUntil(LastRequestTime, Task.Period)`. -/
def vTaskDelayUntil (task : TaskInfo) (now : ℕ) (thread : Thread) : Thread :=
  let result :=
    xTaskDelayUntil (tickCount now) thread.lastRequestTime task.period
  { thread with
    lastRequestTime := result.1
    point :=
      if result.2 then
        .delayed (delayedUntil now (result.1 + 2 ^ 32 - tickCount now))
      else .call }

/-- One step of a thread that works on the record `task`.  `Periodic_Job` gets
the deadline as a `uint16_t`. -/
def runThread (task : TaskInfo) (now : ℕ) (thread : Thread) :
    Option (Thread × Effect) :=
  match thread.point with
  | .entry =>
      some ({ thread with
        point := .syncDelay
        lastRequestTime := tickCount now
        history := { thread.history with start := some now } }, .none)
  | .syncDelay =>
      some ({ thread with
        point := .delayed (delayedUntil now (msToTicks syncR)) }, .none)
  | .delayed wake =>
      if wake ≤ now then some ({ thread with point := .call }, .none) else none
  | .call =>
      some ({ thread with
        point := if task.dependency then .suspend else .job
        deadline := (thread.lastRequestTime + task.period) % 2 ^ 32 }, .none)
  | .suspend => some ({ thread with point := .suspended }, .none)
  | .suspended => none
  | .job =>
      let endTick := (tickCount now + task.runtime) % 2 ^ 32
      some ({ thread with
        point := if thread.deadline % 2 ^ 16 < endTick then .failed else .loop 0
        history := { thread.history with
          entered := thread.history.entered ++ [now] } }, .none)
  | .loop i =>
      some ({ thread with
        point :=
          if i < task.runtime then .spin i ((tickCount now + 1) % 2 ^ 32)
          else .recheck }, .none)
  | .spin i counter =>
      if tickCount now < counter then none
      else some ({ thread with point := .loop (i + 1) }, .none)
  | .recheck =>
      if thread.deadline % 2 ^ 16 < tickCount now then
        some ({ thread with point := .failed }, .none)
      else
        some ({ thread with
          point := .resume
          history := { thread.history with
            finished := thread.history.finished ++ [now] } }, .none)
  | .failed => some ({ thread with point := .hang }, .overflow)
  | .hang => none
  | .resume =>
      match task.splittedPtr with
      | none => some ({ thread with point := .delayUntil }, .none)
      | some handle =>
          some ({ thread with
            point := .delayUntil
            history := { thread.history with
              resumes := thread.history.resumes + 1 } }, .resume handle)
  | .delayUntil => some (vTaskDelayUntil task now thread, .none)

/-- `vTaskResume` on this thread: nothing happens unless it is in the suspended
list. -/
def vTaskResume (thread : Thread) : Thread :=
  match thread.point with
  | .suspended =>
      { thread with
        point := .job
        history := { thread.history with
          releases := thread.history.releases + 1 } }
  | _ => thread

/-! ## The whole program -/

/-- The threads that were created, with the records they copy.  `run_task`
suspends `my_ptr`, which is the thread itself; a piece with `splitted_ptr` set
and the piece it points to belong to one task. -/
structure TaskSet where
  handles : List TaskHandle
  info : TaskHandle → TaskInfo
  own : ∀ handle ∈ handles, (info handle).myPtr = some handle
  linked : ∀ handle ∈ handles, ∀ successor,
    (info handle).splittedPtr = some successor →
      successor ∈ handles ∧ successor ≠ handle ∧
        (info successor).dependency = true ∧
        (info successor).period = (info handle).period
  single : ∀ handle ∈ handles, ∀ other ∈ handles, ∀ successor,
    (info handle).splittedPtr = some successor →
      (info other).splittedPtr = some successor → handle = other

/-- The hyperperiod `MonitorTask` computes. -/
def TaskSet.lcmTicks (tasks : TaskSet) : ℕ :=
  (tasks.handles.map fun handle => (tasks.info handle).period).foldr Nat.lcm 1

inductive MonitorPoint where
  | entry
  /-- In `vTaskDelay(lcm_ticks + 1)`. -/
  | delayed (wake : ℕ)
  /-- The verdict is printed. -/
  | printed (allTasksSchedulable : Bool)
  deriving DecidableEq

structure State where
  now : ℕ
  schedulable : Bool
  thread : TaskHandle → Thread
  monitor : MonitorPoint

inductive Action where
  | tick
  | run (handle : TaskHandle)
  | monitor
  deriving DecidableEq

def State.setThread (handle : TaskHandle) (thread : Thread) (state : State) :
    State :=
  { state with thread := Function.update state.thread handle thread }

def applyEffect (state : State) : Effect → State
  | .none => state
  | .overflow => { state with schedulable := false }
  | .resume handle =>
      state.setThread handle (vTaskResume (state.thread handle))

/-- A step of `MonitorTask` up to its verdict. -/
def monitorStep (tasks : TaskSet) (state : State) : Option State :=
  match state.monitor with
  | .entry =>
      some { state with
        monitor := .delayed (delayedUntil state.now (tasks.lcmTicks + 1)) }
  | .delayed wake =>
      if wake ≤ state.now then
        some { state with monitor := .printed state.schedulable }
      else none
  | .printed _ => none

def step (tasks : TaskSet) (state : State) : Action → Option State
  | .tick => some { state with now := state.now + 1 }
  | .run handle =>
      if handle ∈ tasks.handles then
        match runThread (tasks.info handle) state.now (state.thread handle) with
        | none => none
        | some (thread, effect) =>
            some (applyEffect (state.setThread handle thread) effect)
      else none
  | .monitor => monitorStep tasks state

/-- The program when the scheduler starts. -/
def machine (tasks : TaskSet) : Machine State Action where
  start := ⟨0, true, fun _ => .created, .entry⟩
  step := step tasks

end PicoSched.RunTask
