import PicoSched.Model.DelayedTasks

/-!
# A clock that never wraps

What the timekeeping of the kernel is for: a task sleeps until a tick, given by
a number of ticks since the start, and is ready again in that tick.  The clock
has no lists, no epochs and no next unblock time.
-/

namespace PicoSched.DelayedTasks

open RunTask Transition

/-- What a task does as far as the lists are concerned. -/
inductive Condition where
  /-- The task does not exist. -/
  | absent
  | ready
  | asleep (wake : ℕ)
  | suspended
  /-- The task is left to the idle task. -/
  | deleted
  deriving DecidableEq

structure Clock (ι : Type*) where
  /-- The ticks that have been processed. -/
  now : ℕ
  /-- The ticks that are still to be processed. -/
  pended : ℕ
  /-- The open calls of `vTaskSuspendAll`. -/
  suspensions : ℕ
  condition : ι → Condition
  /-- A suspended task that is ready once the scheduler is resumed. -/
  resumed : ι → Bool

/-- A sleeping task is ready in the tick of its wake time. -/
def Condition.tick (now : ℕ) : Condition → Condition
  | .asleep wake => if wake = now then .ready else .asleep wake
  | condition => condition

namespace Clock

variable {ι : Type*} [DecidableEq ι]

def setCondition (task : ι) (condition : Condition) (clock : Clock ι) :
    Clock ι :=
  { clock with
    condition := Function.update clock.condition task condition
    resumed := Function.update clock.resumed task false }

omit [DecidableEq ι] in
/-- A tick is processed. -/
def advance (clock : Clock ι) : Clock ι :=
  { clock with
    now := clock.now + 1
    condition := fun task => (clock.condition task).tick (clock.now + 1) }

omit [DecidableEq ι] in
def release (clock : Clock ι) : Clock ι :=
  { clock with
    condition := fun task =>
      if clock.resumed task then .ready else clock.condition task
    resumed := fun _ => false }

omit [DecidableEq ι] in
/-- The scheduler is resumed and catches up with the ticks. -/
def resumeAll (clock : Clock ι) : Clock ι :=
  if clock.suspensions = 1 then
    { advance^[clock.pended] { clock.release with suspensions := 0 } with
      pended := 0 }
  else { clock with suspensions := clock.suspensions - 1 }

/-- The wake time that `xTaskDelayUntil` sets, if it delays. -/
def delayUntilWake (now previousWakeTime timeIncrement : ℕ) : Option ℕ :=
  let result :=
    xTaskDelayUntil (tickCount now) previousWakeTime timeIncrement
  if result.2 then
    some (now + (result.1 + 2 ^ 32 - tickCount now) % 2 ^ 32)
  else none

/-- The task is ready and the scheduler is suspended. -/
def Calls (task : ι) (clock : Clock ι) : Prop :=
  clock.condition task = .ready ∧ clock.suspensions ≠ 0

instance (task : ι) (clock : Clock ι) : Decidable (clock.Calls task) :=
  inferInstanceAs (Decidable (_ ∧ _))

def resume (task : ι) (clock : Clock ι) : Clock ι :=
  if clock.condition task = .suspended ∧ clock.resumed task = false then
    clock.setCondition task .ready
  else clock

def resumeFromISR (task : ι) (clock : Clock ι) : Clock ι :=
  if clock.suspensions = 0 then clock.resume task
  else if clock.condition task = .suspended then
    { clock with resumed := Function.update clock.resumed task true }
  else clock

def abortDelay (task : ι) (clock : Clock ι) : Clock ι :=
  match clock.condition task with
  | .asleep _ => clock.setCondition task .ready
  | _ => clock

def delayUntil (task : ι) (previousWakeTime timeIncrement : ℕ)
    (clock : Clock ι) : Clock ι :=
  match delayUntilWake clock.now previousWakeTime timeIncrement with
  | some wake => clock.setCondition task (.asleep wake)
  | none => clock

def step (clock : Clock ι) : Action ι → Option (Clock ι)
  | .create task =>
      if clock.condition task = .absent then
        some (clock.setCondition task .ready)
      else none
  | .tick =>
      if clock.suspensions = 0 then some clock.advance
      else some { clock with pended := clock.pended + 1 }
  | .suspendAll => some { clock with suspensions := clock.suspensions + 1 }
  | .resumeAll =>
      if clock.suspensions ≠ 0 then some clock.resumeAll else none
  | .delay task ticksToDelay =>
      if clock.Calls task ∧ 0 < ticksToDelay ∧ ticksToDelay < 2 ^ 32 then
        some (clock.setCondition task (.asleep (clock.now + ticksToDelay)))
      else none
  | .delayUntil task previousWakeTime timeIncrement =>
      if clock.Calls task then
        some (clock.delayUntil task previousWakeTime timeIncrement)
      else none
  | .block task =>
      if clock.Calls task then some (clock.setCondition task .suspended)
      else none
  | .suspend task =>
      if clock.condition task ≠ .absent then
        some (clock.setCondition task .suspended)
      else none
  | .resume task => some (clock.resume task)
  | .resumeFromISR task => some (clock.resumeFromISR task)
  | .abortDelay task =>
      if clock.suspensions ≠ 0 then some (clock.abortDelay task) else none
  | .delete task isRunningOrYielding =>
      if clock.condition task ≠ .absent then
        some (clock.setCondition task
          (if isRunningOrYielding then .deleted else .absent))
      else none

/-- The counters of the kernel do not wrap. -/
def Fits (clock : Clock ι) : Action ι → Prop
  | .tick => clock.pended + 1 < 2 ^ 32
  | .suspendAll => clock.suspensions + 1 < 2 ^ 32
  | _ => True

instance (clock : Clock ι) (action : Action ι) :
    Decidable (clock.Fits action) :=
  match action with
  | .tick => inferInstanceAs (Decidable (_ < _))
  | .suspendAll => inferInstanceAs (Decidable (_ < _))
  | .create _ | .resumeAll | .delay .. | .delayUntil .. | .block _
  | .suspend _ | .resume _ | .resumeFromISR _ | .abortDelay _ | .delete .. =>
      inferInstanceAs (Decidable True)

end Clock

/-- The clock when the scheduler starts, before the first task is created. -/
def clockMachine (ι : Type*) [DecidableEq ι] : Machine (Clock ι) (Action ι) where
  start := ⟨0, 0, 0, fun _ => .absent, fun _ => false⟩
  step := Clock.step

end PicoSched.DelayedTasks
