import Mathlib.Data.List.MinMax
import PicoSched.Model.TaskInfo

/-!
# The schedule the allocation sets up

The assigned pieces in whole ticks, without the threads and the tick counter
behind them: all tasks are released together, `run_task` lets a piece with
`Dependency` go on to its next job when the piece before it has finished that
job, and every core executes, one tick at a time, the ready piece pinned to it
with the highest declared priority.
-/

namespace PicoSched.TickSchedule

open TaskManager

variable {cfg : Config}

/-- The piece that resumes `slot`: its `splitted_ptr` is the handle of
`slot`. -/
def predecessor (memory : Memory cfg) (slot : TaskPtr cfg) :
    Option (TaskPtr cfg) :=
  (List.finRange cfg.maxNumTasks).find? fun body => decide
    ((memory.taskList body).splittedPtr ≠ none ∧
      (memory.taskList body).splittedPtr = (memory.taskList slot).myPtr)

/-- The jobs of a piece that may execute in tick `t`, when `executed` ticks of
the pieces have been executed.  A piece without ticks finishes its jobs as
they come; the fuel covers the pieces of a task. -/
def readyJobs (memory : Memory cfg) (executed : TaskPtr cfg → ℕ) (t : ℕ) :
    ℕ → TaskPtr cfg → ℕ
  | 0, _ => 0
  | fuel + 1, slot =>
      if (memory.taskList slot).dependency then
        match predecessor memory slot with
        | none => 0
        | some body =>
            if (memory.taskList body).runtime = 0 then
              readyJobs memory executed t fuel body
            else executed body / (memory.taskList body).runtime
      else t / (memory.taskList slot).period + 1

def Ready (memory : Memory cfg) (executed : TaskPtr cfg → ℕ) (t : ℕ)
    (slot : TaskPtr cfg) : Prop :=
  executed slot < (memory.taskList slot).runtime *
    readyJobs memory executed t cfg.maxNumTasks slot

instance (memory : Memory cfg) (executed : TaskPtr cfg → ℕ) (t : ℕ)
    (slot : TaskPtr cfg) : Decidable (Ready memory executed t slot) :=
  inferInstanceAs (Decidable (_ < _))

/-- The pieces given to `Assign_task` for a core. -/
def pinned (memory : Memory cfg) (core : CorePtr cfg) : List (TaskPtr cfg) :=
  (memory.assigned.filter fun entry => entry.2 = core).map Prod.fst

/-- The piece a core executes in tick `t`. -/
def running (memory : Memory cfg) (executed : TaskPtr cfg → ℕ) (t : ℕ)
    (core : CorePtr cfg) : Option (TaskPtr cfg) :=
  ((pinned memory core).filter fun slot => Ready memory executed t slot).argmax
    fun slot => (memory.taskList slot).priority

/-- One tick of all cores. -/
def tick (memory : Memory cfg) (t : ℕ) (executed : TaskPtr cfg → ℕ) :
    TaskPtr cfg → ℕ :=
  fun slot => executed slot +
    if ∃ core, running memory executed t core = some slot then 1 else 0

/-- The ticks of every piece that have been executed before tick `t`. -/
def executedAt (memory : Memory cfg) : ℕ → TaskPtr cfg → ℕ
  | 0 => fun _ => 0
  | t + 1 => tick memory t (executedAt memory t)

/-- `trace` lists the first `last` ticks of the schedule. -/
def BeginsWith (memory : Memory cfg) (trace : ℕ → TaskPtr cfg → ℕ) (last : ℕ) :
    Prop :=
  (∀ slot, trace 0 slot = 0) ∧
    ∀ t < last, ∀ slot, tick memory t (trace t) slot = trace (t + 1) slot

instance (memory : Memory cfg) (trace : ℕ → TaskPtr cfg → ℕ) (last : ℕ) :
    Decidable (BeginsWith memory trace last) :=
  inferInstanceAs (Decidable (_ ∧ ∀ t < last, ∀ _, _ = _))

theorem BeginsWith.executedAt_eq {memory : Memory cfg}
    {trace : ℕ → TaskPtr cfg → ℕ} {last : ℕ}
    (hbegins : BeginsWith memory trace last) :
    ∀ t ≤ last, executedAt memory t = trace t := by
  intro t
  induction t with
  | zero => exact fun _ => funext fun slot => (hbegins.1 slot).symm
  | succ t ih =>
      intro ht
      rw [executedAt, ih (Nat.le_of_succ_le ht)]
      exact funext (hbegins.2 t ht)

end PicoSched.TickSchedule
