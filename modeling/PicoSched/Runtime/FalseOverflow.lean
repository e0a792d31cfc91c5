import Mathlib.Data.List.Basic
import PicoSched.Model.PeriodicJob
import PicoSched.Runtime.Threads

/-!
# False overflows

`run_task` computes the deadline in 32 bits and hands it over in 16.  From
`2 ^ 16` on, a job with time to spare can be reported as an overflow.
-/

namespace PicoSched.RunTask

variable {task : TaskManager.TaskInfo} {thread : Thread}
  {runtime period lastRequestTime deadline : ℕ} {ticks : List ℕ}
  {result : Bool}

/-! ## The function and the steps of a thread -/

/-- The result of a job of a thread that is run at the given ticks until
`Periodic_Job` returns; a thread in the `while` loop reads again. -/
def jobResult (task : TaskManager.TaskInfo) (thread : Thread) :
    List ℕ → Option Bool
  | [] => none
  | now :: ticks =>
      match runThread task now thread with
      | none => jobResult task thread ticks
      | some (after, _) =>
          if after.point = .failed then some false
          else if after.point = .resume then some true
          else jobResult task after ticks

/-- The result of the second check. -/
def checkLast (deadline runtime : ℕ) (ticks : List ℕ) : Option Bool :=
  (lastTick runtime ticks).map fun last => !decide (deadline % 2 ^ 16 < last)

/-- Between the two checks of `Periodic_Job`. -/
def Point.checked : Point → Bool
  | .loop _ | .spin _ _ | .recheck => true
  | _ => false

/-- The result of `Periodic_Job` from a point behind its first check. -/
def resultFrom (deadline runtime : ℕ) : Point → List ℕ → Option Bool
  | .loop i, ticks => checkLast deadline (runtime - i) ticks
  | .spin i counter, ticks =>
      (busyWait counter ticks).bind (checkLast deadline (runtime - (i + 1)))
  | .recheck, ticks => checkLast deadline 0 ticks
  | _, _ => none

theorem checkLast_cons (tick iterations : ℕ) :
    checkLast deadline (iterations + 1) (tick :: ticks) =
      (busyWait ((tick + 1) % 2 ^ 32) ticks).bind
        (checkLast deadline iterations) := by
  rw [checkLast, lastTick, busyLoop]
  cases busyWait ((tick + 1) % 2 ^ 32) ticks with
  | none => rfl
  | some rest => rfl

theorem periodicJob_of_checked {entry printed : ℕ}
    (hcheck : ¬deadline % 2 ^ 16 < (entry + runtime) % 2 ^ 32) :
    periodicJob runtime deadline (entry :: printed :: ticks) =
      checkLast deadline runtime ticks := by
  rw [periodicJob, if_neg hcheck, checkLast]
  cases lastTick runtime ticks with
  | none => rfl
  | some last =>
      by_cases hlate : deadline % 2 ^ 16 < last
      · rw [Option.map_some, decide_eq_true hlate]
        exact if_pos hlate
      · rw [Option.map_some, decide_eq_false hlate]
        exact if_neg hlate

theorem jobResult_of_wait {now : ℕ} (hwait : runThread task now thread = none) :
    jobResult task thread (now :: ticks) = jobResult task thread ticks := by
  rw [jobResult, hwait]

theorem jobResult_of_step {now : ℕ} {after : Thread} {effect : Effect}
    (hstep : runThread task now thread = some (after, effect))
    (hchecked : after.point.checked = true) :
    jobResult task thread (now :: ticks) = jobResult task after ticks := by
  have hfailed : after.point ≠ .failed := by
    intro heq
    rw [heq] at hchecked
    cases hchecked
  have hresume : after.point ≠ .resume := by
    intro heq
    rw [heq] at hchecked
    cases hchecked
  rw [jobResult, hstep]
  dsimp only
  rw [if_neg hfailed, if_neg hresume]

/-- Inside the job a thread reads some of the ticks it is run at. -/
theorem resultFrom_of_jobResult (hchecked : thread.point.checked = true)
    (hresult : jobResult task thread ticks = some result) :
    ∃ reads, reads.Sublist (ticks.map tickCount) ∧
      resultFrom thread.deadline task.runtime thread.point reads =
        some result := by
  induction ticks generalizing thread with
  | nil => cases hresult
  | cons now ticks ih =>
      cases hpoint : thread.point with
      | loop i =>
          by_cases hless : i < task.runtime
          · have hstep : runThread task now thread = some ({ thread with
                point := .spin i ((tickCount now + 1) % 2 ^ 32) }, .none) := by
              rw [runThread, hpoint]
              simp only [if_pos hless]
            rw [jobResult_of_step hstep rfl] at hresult
            obtain ⟨reads, hreads, hfrom⟩ := ih rfl hresult
            refine ⟨tickCount now :: reads, hreads.cons_cons _, ?_⟩
            have hnext : task.runtime - i = task.runtime - (i + 1) + 1 := by
              omega
            rw [resultFrom, hnext, checkLast_cons]
            exact hfrom
          · have hstep : runThread task now thread =
                some ({ thread with point := .recheck }, .none) := by
              rw [runThread, hpoint]
              simp only [if_neg hless]
            rw [jobResult_of_step hstep rfl] at hresult
            obtain ⟨reads, hreads, hfrom⟩ := ih rfl hresult
            refine ⟨reads, hreads.cons _, ?_⟩
            rw [resultFrom, Nat.sub_eq_zero_of_le (not_lt.mp hless)]
            exact hfrom
      | spin i counter =>
          by_cases hwait : tickCount now < counter
          · have hstep : runThread task now thread = none := by
              rw [runThread, hpoint]
              exact if_pos hwait
            rw [jobResult_of_wait hstep] at hresult
            obtain ⟨reads, hreads, hfrom⟩ := ih hchecked hresult
            refine ⟨tickCount now :: reads, hreads.cons_cons _, ?_⟩
            rw [hpoint] at hfrom
            rw [resultFrom, busyWait, if_pos hwait]
            exact hfrom
          · have hstep : runThread task now thread =
                some ({ thread with point := .loop (i + 1) }, .none) := by
              rw [runThread, hpoint]
              exact if_neg hwait
            rw [jobResult_of_step hstep rfl] at hresult
            obtain ⟨reads, hreads, hfrom⟩ := ih rfl hresult
            refine ⟨tickCount now :: reads, hreads.cons_cons _, ?_⟩
            rw [resultFrom, busyWait, if_neg hwait]
            exact hfrom
      | recheck =>
          refine ⟨[tickCount now], by simp, ?_⟩
          rw [jobResult, runThread, hpoint] at hresult
          rw [resultFrom, checkLast, lastTick, busyLoop, Option.map_some]
          by_cases hlate : thread.deadline % 2 ^ 16 < tickCount now
          · rw [decide_eq_true hlate]
            simp only [if_pos hlate] at hresult
            exact hresult
          · rw [decide_eq_false hlate]
            simp only [if_neg hlate, reduceCtorEq, if_false] at hresult
            exact hresult
      | _ =>
          rw [hpoint] at hchecked
          cases hchecked

/-- A job that a thread does step by step has the result the function has for
the ticks read. -/
theorem periodicJob_of_jobResult {now : ℕ} (hpoint : thread.point = .job)
    (hresult : jobResult task thread (now :: ticks) = some result) :
    ∃ reads, reads.Sublist (ticks.map tickCount) ∧
      periodicJob task.runtime thread.deadline
        (tickCount now :: tickCount now :: reads) = some result := by
  by_cases hlate : thread.deadline % 2 ^ 16 <
      (tickCount now + task.runtime) % 2 ^ 32
  · rw [jobResult, runThread, hpoint] at hresult
    simp only [if_pos hlate] at hresult
    refine ⟨[], List.nil_sublist _, ?_⟩
    rw [periodicJob, if_pos hlate]
    exact hresult
  · have hstep : runThread task now thread = some ({ thread with
        point := .loop 0
        history := { thread.history with
          entered := thread.history.entered ++ [now] } }, .none) := by
      rw [runThread, hpoint]
      simp only [if_neg hlate]
    rw [jobResult_of_step hstep rfl] at hresult
    obtain ⟨reads, hreads, hfrom⟩ :=
      resultFrom_of_jobResult rfl hresult
    exact ⟨reads, hreads, (periodicJob_of_checked hlate).trans hfrom⟩

/-- The body of a task enters its job at tick 1 and finishes it at tick 2. -/
theorem splitPair_periodicJob :
    ∃ reads, reads.Sublist ([1, 1, 2, 2, 2].map tickCount) ∧
      periodicJob 1 3 (tickCount 1 :: tickCount 1 :: reads) = some true := by
  have hresult : jobResult ((splitPair 1 1 3).info 0)
      { Thread.created with point := .job, deadline := 3 } [1, 1, 1, 2, 2, 2] =
        some true := by decide
  exact periodicJob_of_jobResult rfl hresult

/-! ## Overflows -/

/-- The job cannot have met the deadline: at entry there is less time left than
it runs, or the tick read after its last iteration is past the deadline. -/
def MissesDeadline (runtime deadline : ℕ) : List ℕ → Prop
  | entry :: _ :: ticks =>
      deadline < entry + runtime ∨
        ∃ last, lastTick runtime ticks = some last ∧ deadline < last
  | _ => False

/-- For every sequence of tick readings, `Periodic_Job` returns `false` only
when the job misses the deadline of `run_task`. -/
def NoFalseOverflow (runtime period lastRequestTime : ℕ) : Prop :=
  ∀ ticks : List ℕ, ticks.Pairwise (· ≤ ·) → (∀ tick ∈ ticks, tick < 2 ^ 32) →
    callPeriodicJob runtime period lastRequestTime ticks = some false →
      MissesDeadline runtime (lastRequestTime + period) ticks

/-- A deadline that fits the parameter is checked as it is. -/
theorem noFalseOverflow_of_lt (hfits : lastRequestTime + period < 2 ^ 16) :
    NoFalseOverflow runtime period lastRequestTime := by
  intro ticks _ _ hfalse
  have hdeadline : (lastRequestTime + period) % 2 ^ 32 % 2 ^ 16 =
      lastRequestTime + period := by omega
  obtain _ | ⟨entry, _ | ⟨printed, ticks⟩⟩ := ticks
  · cases hfalse
  · cases hfalse
  · rw [callPeriodicJob, periodicJob, hdeadline] at hfalse
    split at hfalse
    · rename_i hentry
      exact .inl (hentry.trans_le (Nat.mod_le _ _))
    · split at hfalse
      · rename_i last hlast
        split at hfalse
        · rename_i hlate
          exact .inr ⟨last, hlast, hlate⟩
        · cases hfalse
      · cases hfalse

/-- A job that would end exactly at a deadline that does not fit is reported
as an overflow. -/
theorem callPeriodicJob_of_ge (hruntime : runtime ≤ lastRequestTime + period)
    (hwrap : lastRequestTime + period < 2 ^ 32)
    (hlarge : 2 ^ 16 ≤ lastRequestTime + period) :
    callPeriodicJob runtime period lastRequestTime
      [lastRequestTime + period - runtime,
        lastRequestTime + period - runtime] = some false := by
  rw [callPeriodicJob, periodicJob, if_pos]
  rw [Nat.sub_add_cancel hruntime, Nat.mod_eq_of_lt hwrap]
  exact (Nat.mod_lt _ (by norm_num)).trans_le hlarge

/-- The calls of `run_task` report no false overflow exactly when the deadline
fits the parameter of `Periodic_Job`. -/
theorem noFalseOverflow_iff (hruntime : runtime < 2 ^ 16)
    (hwrap : lastRequestTime + period < 2 ^ 32) :
    NoFalseOverflow runtime period lastRequestTime ↔
      lastRequestTime + period < 2 ^ 16 := by
  constructor
  · intro hnone
    by_contra hfits
    have hlarge := not_lt.mp hfits
    have hruntime' := (hruntime.trans_le hlarge).le
    have hfalse := callPeriodicJob_of_ge hruntime' hwrap hlarge
    have hreads : ∀ tick ∈ [lastRequestTime + period - runtime,
        lastRequestTime + period - runtime], tick < 2 ^ 32 := by
      intro tick htick
      simp only [List.mem_cons, List.not_mem_nil, or_false, or_self] at htick
      omega
    have hmisses := hnone _ (List.pairwise_pair.mpr le_rfl) hreads hfalse
    rcases hmisses with hlate | ⟨last, hlast, _⟩
    · rw [Nat.sub_add_cancel hruntime'] at hlate
      exact absurd hlate (lt_irrefl _)
    · cases runtime with
      | zero => cases hlast
      | succ iterations => cases hlast
  · exact noFalseOverflow_of_lt

/-- The deadline 65535 fits the parameter. -/
theorem shortUptime_noFalseOverflow : NoFalseOverflow 1 30 65505 :=
  (noFalseOverflow_iff (by norm_num) (by norm_num)).mpr (by norm_num)

/-- A job of one tick is entered 30 ticks before the deadline 65550, which
`Periodic_Job` receives as 14. -/
theorem longUptime_falseOverflow :
    callPeriodicJob 1 30 65520 [65520, 65520] = some false ∧
      ¬MissesDeadline 1 (65520 + 30) [65520, 65520] ∧
      ¬NoFalseOverflow 1 30 65520 := by
  have hfalse : callPeriodicJob 1 30 65520 [65520, 65520] = some false := by
    decide
  have htime : ¬MissesDeadline 1 (65520 + 30) [65520, 65520] := by
    rintro (hlate | ⟨last, hlast, _⟩)
    · exact absurd hlate (by norm_num)
    · cases hlast
  refine ⟨hfalse, htime, fun hnone => htime ?_⟩
  exact hnone _ (List.pairwise_pair.mpr le_rfl) (by simp) hfalse

end PicoSched.RunTask
