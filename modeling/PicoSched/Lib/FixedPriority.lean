import Mathlib.Algebra.BigOperators.Group.Finset.Piecewise
import Mathlib.Algebra.Order.BigOperators.Group.Finset
import Mathlib.Algebra.Order.Floor.Div
import Mathlib.Data.Nat.Find

/-!
# One core under fixed priorities

A core executes one tick at a time of the highest ready job.  A task whose
jobs arrive periodically meets its deadline when the ticks it and the tasks
above it can ask for are served some time after a common release.
-/

namespace PicoSched.FixedPriority

/-! ## Periodic arrivals -/

/-- The jobs that arrive before `t`: one at `offset`, then one every period. -/
def arrivals (offset period t : ℕ) : ℕ := (t - offset) ⌈/⌉ period

section Arrivals

variable {offset period : ℕ}

theorem lt_arrivals_iff (hperiod : 0 < period) {n t : ℕ} :
    n < arrivals offset period t ↔ offset + n * period < t := by
  rw [arrivals, ← not_le, ceilDiv_le_iff_le_mul hperiod, mul_comm]
  omega

theorem arrivals_zero (offset period : ℕ) : arrivals offset period 0 = 0 := by
  rw [arrivals, Nat.zero_sub, zero_ceilDiv]

theorem arrivals_mono (hperiod : 0 < period) :
    Monotone (arrivals offset period) := by
  intro first last hle
  by_contra hless
  have hlast := (lt_arrivals_iff hperiod).mp (not_le.mp hless)
  exact lt_irrefl _ ((lt_arrivals_iff hperiod).mpr (hlast.trans_le hle))

/-- A window of `length` ticks sees at most the arrivals of a window that
starts with one. -/
theorem arrivals_add_le (hperiod : 0 < period) (t length : ℕ) :
    arrivals offset period (t + length) ≤
      arrivals offset period t + length ⌈/⌉ period := by
  have hbefore : t - offset ≤ period * arrivals offset period t :=
    (ceilDiv_le_iff_le_mul hperiod).mp le_rfl
  have hwindow : length ≤ period * (length ⌈/⌉ period) :=
    (ceilDiv_le_iff_le_mul hperiod).mp le_rfl
  rw [arrivals, ceilDiv_le_iff_le_mul hperiod, mul_add]
  omega

/-- The arrivals determine the first one. -/
theorem offset_eq {other : ℕ} (hperiod : 0 < period)
    (harrivals : ∀ t, arrivals offset period (t + 1) =
      arrivals other period (t + 1)) : offset = other := by
  apply eq_of_forall_ge_iff
  intro t
  have hfirst : 0 < arrivals offset period (t + 1) ↔
      offset + 0 * period < t + 1 := lt_arrivals_iff hperiod
  rw [harrivals, lt_arrivals_iff hperiod] at hfirst
  omega

end Arrivals

/-! ## The schedule of a core -/

variable {ι : Type*} [DecidableEq ι]

/-- A core executes one tick after the other.  `arrived i t` jobs of `i` are
there in tick `t`, each of `cost i` ticks, and `executed i t` ticks of them
have been executed before it. -/
structure CoreSchedule (tasks : Finset ι) (higher : ι → ι → Prop)
    (cost : ι → ℕ) (arrived executed : ι → ℕ → ℕ) (running : ℕ → Option ι) :
    Prop where
  start : ∀ i ∈ tasks, executed i 0 = 0
  tick : ∀ t, ∀ i ∈ tasks, executed i (t + 1) =
    executed i t + if running t = some i then 1 else 0
  ready : ∀ t i, running t = some i →
    i ∈ tasks ∧ executed i t < cost i * arrived i t
  highest : ∀ t, ∀ i ∈ tasks, executed i t < cost i * arrived i t →
    ∃ j, running t = some j ∧ (j = i ∨ higher j i)

/-- The ticks a task of cost `own` and the tasks `above` it ask for until `t`. -/
def demand (own : ℕ) (above : Finset ι) (period cost : ι → ℕ) (t : ℕ) : ℕ :=
  own + ∑ j ∈ above, t ⌈/⌉ period j * cost j

omit [DecidableEq ι] in
theorem demand_congr {above : Finset ι} {period period' : ι → ℕ}
    (hperiod : ∀ j ∈ above, period j = period' j) (own : ℕ) (cost : ι → ℕ)
    (t : ℕ) : demand own above period cost t =
      demand own above period' cost t := by
  rw [demand, demand]
  congr 1
  apply Finset.sum_congr rfl
  intro j hj
  rw [hperiod j hj]

theorem demand_image {κ : Type*} [DecidableEq κ] {rename : κ → ι}
    {above : Finset κ} (hrename : Set.InjOn rename above) (own : ℕ)
    (period cost : ι → ℕ) (t : ℕ) :
    demand own (above.image rename) period cost t =
      demand own above (period ∘ rename) (cost ∘ rename) t := by
  rw [demand, demand, Finset.sum_image hrename]
  rfl

namespace CoreSchedule

variable {tasks above : Finset ι} {higher : ι → ι → Prop} {cost : ι → ℕ}
  {arrived executed : ι → ℕ → ℕ} {running : ℕ → Option ι}
  {offset period : ι → ℕ} {i : ι}

theorem executed_mono
    (hcore : CoreSchedule tasks higher cost arrived executed running)
    (hi : i ∈ tasks) : Monotone (executed i) := by
  apply monotone_nat_of_le_succ
  intro t
  rw [hcore.tick t i hi]
  exact Nat.le_add_right _ _

/-- A window executes at most one tick after the other. -/
theorem executed_add_le
    (hcore : CoreSchedule tasks higher cost arrived executed running)
    (hi : i ∈ tasks) (t length : ℕ) :
    executed i (t + length) ≤ executed i t + length := by
  induction length with
  | zero => exact le_rfl
  | succ length ih =>
      rw [← Nat.add_assoc, hcore.tick _ i hi]
      split <;> omega

/-- Only arrived jobs are executed. -/
theorem executed_le
    (hcore : CoreSchedule tasks higher cost arrived executed running)
    (hi : i ∈ tasks) {first every : ℕ} (hevery : 0 < every)
    (harrived : ∀ t, arrived i t = arrivals first every (t + 1)) (t : ℕ) :
    executed i t ≤ cost i * arrivals first every t := by
  induction t with
  | zero =>
      rw [hcore.start i hi]
      exact Nat.zero_le _
  | succ t ih =>
      rw [hcore.tick t i hi]
      split
      · rename_i hrunning
        have hready := (hcore.ready t i hrunning).2
        rw [harrived] at hready
        exact hready
      · rw [add_zero]
        exact ih.trans (Nat.mul_le_mul_left _
          (arrivals_mono hevery (Nat.le_succ t)))

/-- While the core works on a set of tasks, they get all its ticks. -/
theorem sum_executed_of_busy
    (hcore : CoreSchedule tasks higher cost arrived executed running)
    {chosen : Finset ι} (hchosen : chosen ⊆ tasks) {start length : ℕ}
    (hbusy : ∀ t, start ≤ t → t < start + length →
      ∃ j ∈ chosen, running t = some j) :
    ∑ j ∈ chosen, executed j (start + length) =
      ∑ j ∈ chosen, executed j start + length := by
  induction length with
  | zero => rfl
  | succ length ih =>
      obtain ⟨j, hj, hrunning⟩ := hbusy (start + length)
        (Nat.le_add_right _ _) (by omega)
      have hticks : ∑ k ∈ chosen, executed k (start + length + 1) =
          ∑ k ∈ chosen, (executed k (start + length) +
            if j = k then 1 else 0) := by
        apply Finset.sum_congr rfl
        intro k hk
        rw [hcore.tick _ k (hchosen hk), hrunning]
        simp only [Option.some.injEq]
      rw [← Nat.add_assoc, hticks, Finset.sum_add_distrib,
        Finset.sum_ite_eq, if_pos hj, ih, Nat.add_assoc]
      intro t hstart hless
      exact hbusy t hstart (by omega)

/-- What is not executed in a window stays as it was. -/
theorem executed_eq_of_not_running
    (hcore : CoreSchedule tasks higher cost arrived executed running)
    (hi : i ∈ tasks) {start length : ℕ}
    (hother : ∀ t, start ≤ t → t < start + length → running t ≠ some i) :
    executed i (start + length) = executed i start := by
  induction length with
  | zero => rfl
  | succ length ih =>
      rw [← Nat.add_assoc, hcore.tick _ i hi,
        if_neg (hother _ (Nat.le_add_right _ _) (by omega)), add_zero, ih]
      intro t hstart hless
      exact hother t hstart (by omega)

/-! ## Response times -/

/-- The work of `above` that arrived before `t` is done. -/
def Idle (above : Finset ι) (cost offset period : ι → ℕ)
    (executed : ι → ℕ → ℕ) (t : ℕ) : Prop :=
  ∀ j ∈ above, executed j t = cost j * arrivals (offset j) (period j) t

/-- The last time up to `t` without work of `above` from before, and no tick
for anybody else after it. -/
theorem exists_idle
    (hcore : CoreSchedule tasks higher cost arrived executed running)
    (habove : above ⊆ tasks)
    (hclosed : ∀ j ∈ above, ∀ k ∈ tasks, higher k j → k ∈ above)
    (hperiod : ∀ j ∈ above, 0 < period j)
    (harrived : ∀ j ∈ above, ∀ t,
      arrived j t = arrivals (offset j) (period j) (t + 1)) (t : ℕ) :
    ∃ start ≤ t, Idle above cost offset period executed start ∧
      ∀ u, start ≤ u → u < t → ∃ j ∈ above, running u = some j := by
  classical
  refine ⟨Nat.findGreatest (Idle above cost offset period executed) t,
    Nat.findGreatest_le t, ?_, ?_⟩
  · apply Nat.findGreatest_spec (Nat.zero_le t)
    intro j hj
    rw [hcore.start j (habove hj), arrivals_zero, mul_zero]
  · intro u hstart hless
    have hwork := Nat.findGreatest_is_greatest
      (Nat.lt_succ_of_le hstart) (Nat.succ_le_of_lt hless)
    rw [Idle] at hwork
    push Not at hwork
    obtain ⟨j, hj, hne⟩ := hwork
    have hready : executed j u < cost j * arrived j u := by
      rw [harrived j hj]
      exact (hcore.executed_mono (habove hj) (Nat.le_succ u)).trans_lt
        (lt_of_le_of_ne
          (hcore.executed_le (habove hj) (hperiod j hj) (harrived j hj) _) hne)
    obtain ⟨k, hrunning, hk⟩ := hcore.highest u j (habove hj) hready
    refine ⟨k, ?_, hrunning⟩
    rcases hk with rfl | hhigher
    · exact hj
    · exact hclosed j hj k (hcore.ready u k hrunning).1 hhigher

/-- What the tasks of a set ask for in a window that starts when all their
work is done. -/
theorem sum_executed_le
    (hcore : CoreSchedule tasks higher cost arrived executed running)
    (habove : above ⊆ tasks) (hperiod : ∀ j ∈ above, 0 < period j)
    (harrived : ∀ j ∈ above, ∀ t,
      arrived j t = arrivals (offset j) (period j) (t + 1))
    {start : ℕ} (hidle : Idle above cost offset period executed start)
    (length : ℕ) :
    ∑ j ∈ above, executed j (start + length) ≤
      ∑ j ∈ above, executed j start +
        ∑ j ∈ above, length ⌈/⌉ period j * cost j := by
  rw [← Finset.sum_add_distrib]
  apply Finset.sum_le_sum
  intro j hj
  calc
    executed j (start + length) ≤
        cost j * arrivals (offset j) (period j) (start + length) :=
      hcore.executed_le (habove hj) (hperiod j hj) (harrived j hj) _
    _ ≤ cost j * (arrivals (offset j) (period j) start +
          length ⌈/⌉ period j) :=
      Nat.mul_le_mul_left _ (arrivals_add_le (hperiod j hj) start length)
    _ = executed j start + length ⌈/⌉ period j * cost j := by
      rw [hidle j hj, Nat.mul_add, Nat.mul_comm (cost j) (length ⌈/⌉ _)]

section Response

variable {deadline : ℕ}
  (hcore : CoreSchedule tasks higher cost arrived executed running)
  (hi : i ∈ tasks) (habove : above ⊆ tasks) (hnot : i ∉ above)
  (hclosed : ∀ j ∈ insert i above, ∀ k ∈ tasks, higher k j → k ∈ above)
  (hperiod : ∀ j ∈ insert i above, 0 < period j)
  (harrived : ∀ j ∈ insert i above, ∀ t,
    arrived j t = arrivals (offset j) (period j) (t + 1))
  (hdemand : ∃ length ≤ deadline,
    demand (cost i) above period cost length ≤ length)

include hcore hi habove hnot hclosed hperiod harrived hdemand

/-- A job is done by its deadline, when the jobs before it are done at its
release. -/
theorem met_of_started {n : ℕ}
    (hstarted : n * cost i ≤ executed i (offset i + n * period i)) :
    (n + 1) * cost i ≤ executed i (offset i + n * period i + deadline) := by
  rw [Finset.forall_mem_insert] at hclosed hperiod harrived
  set release := offset i + n * period i with hrelease
  by_contra hlate
  rw [not_le] at hlate
  obtain ⟨length, hlength, hserved⟩ := hdemand
  obtain ⟨start, hstart, hidle, hbusy⟩ := hcore.exists_idle habove hclosed.2
    hperiod.2 harrived.2 release
  -- until the release the core is busy with the tasks above
  have hkept : n * cost i ≤ executed i start := by
    have hsame : executed i (start + (release - start)) = executed i start := by
      apply hcore.executed_eq_of_not_running hi
      intro u hfrom hless heq
      obtain ⟨j, hj, hrunning⟩ := hbusy u hfrom (by omega)
      rw [heq] at hrunning
      exact hnot (Option.some.inj hrunning ▸ hj)
    rw [← hsame, Nat.add_sub_of_le hstart]
    exact hstarted
  -- after it, with the job as well
  have hwork : ∀ u, start ≤ u → u < start + length →
      ∃ j ∈ insert i above, running u = some j := by
    intro u hfrom hless
    by_cases hearly : u < release
    · obtain ⟨j, hj, hrunning⟩ := hbusy u hfrom hearly
      exact ⟨j, Finset.mem_insert_of_mem hj, hrunning⟩
    · have harrivals : n < arrived i u := by
        rw [harrived.1, lt_arrivals_iff hperiod.1]
        omega
      have hready : executed i u < cost i * arrived i u := by
        calc
          executed i u ≤ executed i (release + deadline) :=
            hcore.executed_mono hi (by omega)
          _ < (n + 1) * cost i := hlate
          _ ≤ cost i * arrived i u := by
            rw [Nat.mul_comm]
            exact Nat.mul_le_mul_left _ harrivals
      obtain ⟨j, hrunning, hj⟩ := hcore.highest u i hi hready
      refine ⟨j, ?_, hrunning⟩
      rcases hj with rfl | hhigher
      · exact Finset.mem_insert_self ..
      · exact Finset.mem_insert_of_mem
          (hclosed.1 j (hcore.ready u j hrunning).1 hhigher)
  have hticks := hcore.sum_executed_of_busy
    (Finset.insert_subset hi habove) hwork
  rw [Finset.sum_insert hnot, Finset.sum_insert hnot] at hticks
  have hothers := hcore.sum_executed_le habove hperiod.2 harrived.2 hidle length
  have hown : executed i (start + length) < (n + 1) * cost i :=
    (hcore.executed_mono hi (by omega)).trans_lt hlate
  rw [demand] at hserved
  rw [Nat.succ_mul] at hown
  omega

/-- Every job is done by its deadline, when the demand of a window that starts
with all releases is served by then. -/
theorem met (hdeadline : deadline ≤ period i) (n : ℕ) :
    (n + 1) * cost i ≤ executed i (offset i + n * period i + deadline) := by
  induction n with
  | zero =>
      apply hcore.met_of_started hi habove hnot hclosed hperiod harrived hdemand
      rw [Nat.zero_mul]
      exact Nat.zero_le _
  | succ n ih =>
      apply hcore.met_of_started hi habove hnot hclosed hperiod harrived hdemand
      apply ih.trans
      apply hcore.executed_mono hi
      rw [Nat.succ_mul]
      omega

end Response

/-- A task that no other may interrupt executes every job at its release. -/
theorem le_executed_iff
    (hcore : CoreSchedule tasks higher cost arrived executed running)
    (hi : i ∈ tasks) (htop : ∀ k ∈ tasks, ¬higher k i) (hpos : 0 < cost i)
    {first every : ℕ} (hevery : 0 < every) (hcost : cost i ≤ every)
    (harrived : ∀ t, arrived i t = arrivals first every (t + 1)) (n t : ℕ) :
    (n + 1) * cost i ≤ executed i t ↔ first + n * every + cost i ≤ t := by
  constructor
  · intro hdone
    by_contra hless
    rw [not_le] at hless
    by_cases hbefore : t ≤ first + n * every
    · -- the job has not arrived
      have hbound := hcore.executed_le hi hevery harrived t
      have hfew : arrivals first every t ≤ n := by
        rw [← not_lt, lt_arrivals_iff hevery]
        omega
      have hmul := Nat.mul_le_mul_left (cost i) hfew
      rw [Nat.succ_mul, Nat.mul_comm n] at hdone
      omega
    · -- it has been there for less than its cost
      have hbound := hcore.executed_le hi hevery harrived (first + n * every)
      have hfew : arrivals first every (first + n * every) ≤ n := by
        rw [← not_lt, lt_arrivals_iff hevery]
        omega
      have hmul := Nat.mul_le_mul_left (cost i) hfew
      have hwindow := hcore.executed_add_le hi (first + n * every)
        (t - (first + n * every))
      rw [Nat.add_sub_of_le (by omega)] at hwindow
      rw [Nat.succ_mul, Nat.mul_comm n] at hdone
      omega
  · intro hlater
    have hclosed : ∀ j ∈ insert i (∅ : Finset ι), ∀ k ∈ tasks, higher k j →
        k ∈ (∅ : Finset ι) := by
      intro j hj k hk hhigher
      rw [Finset.mem_insert, or_iff_left (Finset.notMem_empty j)] at hj
      exact absurd (hj ▸ hhigher) (htop k hk)
    have harrived' : ∀ j ∈ insert i (∅ : Finset ι), ∀ t,
        arrived j t = arrivals first every (t + 1) := by
      simpa using harrived
    have hdemand : demand (cost i) ∅ (fun _ => every) cost (cost i) ≤
        cost i := by
      rw [demand, Finset.sum_empty, add_zero]
    exact (hcore.met hi (Finset.empty_subset tasks) (Finset.notMem_empty i)
      hclosed (fun _ _ => hevery) harrived' ⟨cost i, le_rfl, hdemand⟩ hcost n).trans
        (hcore.executed_mono hi hlater)

end CoreSchedule

end PicoSched.FixedPriority
