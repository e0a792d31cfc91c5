import Mathlib.Algebra.Group.Nat.Defs

/-!
# `Periodic_Job` as a function

The call that `run_task` makes, as a function of the values `xTaskGetTickCount`
returns one after the other.  A preempted job finds more ticks between two of
its reads.
-/

namespace PicoSched.RunTask

/-- `while(xTaskGetTickCount() < counter)`: what is read after it. -/
def busyWait (counter : ℕ) : List ℕ → Option (List ℕ)
  | [] => none
  | tick :: ticks =>
      if tick < counter then busyWait counter ticks else some ticks

/-- The last iterations of the `for` loop over `T.Runtime`. -/
def busyLoop : ℕ → List ℕ → Option (List ℕ)
  | 0, ticks => some ticks
  | _ + 1, [] => none
  | iterations + 1, tick :: ticks =>
      match busyWait ((tick + 1) % 2 ^ 32) ticks with
      | none => none
      | some ticks => busyLoop iterations ticks

/-- The tick of the second deadline check, read after the `for` loop. -/
def lastTick (runtime : ℕ) (ticks : List ℕ) : Option ℕ :=
  match busyLoop runtime ticks with
  | some (last :: _) => some last
  | _ => none

/-- What `Periodic_Job` returns, once it does.  `Deadline` is a `uint16_t`, and
the second read is the one the first line prints. -/
def periodicJob (runtime deadline : ℕ) : List ℕ → Option Bool
  | entry :: _ :: ticks =>
      if deadline % 2 ^ 16 < (entry + runtime) % 2 ^ 32 then some false
      else
        match lastTick runtime ticks with
        | some last =>
            if deadline % 2 ^ 16 < last then some false else some true
        | none => none
  | _ => none

/-- `Periodic_Job(Task, Deadline)` as `run_task` calls it. -/
def callPeriodicJob (runtime period lastRequestTime : ℕ) (ticks : List ℕ) :
    Option Bool :=
  periodicJob runtime ((lastRequestTime + period) % 2 ^ 32) ticks

end PicoSched.RunTask
