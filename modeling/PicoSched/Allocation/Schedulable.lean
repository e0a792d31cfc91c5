import PicoSched.Allocation.Chains
import PicoSched.Allocation.TailRoom
import PicoSched.Lib.UtilizationBound

/-!
# The packing is schedulable

On every core, the last piece of a task and the pieces above it are served
within what the bodies of the task leave of its period.  The shorter deadline
makes the utilizations grow by a common factor, and the load that the tail
leaves below itself makes up for it.
-/

namespace PicoSched.Filling

open FixedPriority

variable {κ : Type*} [DecidableEq κ]

/-- The load on a core that belongs to `task` and the tasks before it. -/
def upperLoad (placed : List (Placement κ)) (core : κ) (task : ℕ) : ℚ :=
  (placed.map fun x =>
    if x.core = core ∧ x.piece.task ≤ task then x.piece.load else 0).sum

theorem upperLoad_add_lowerLoad (placed : List (Placement κ)) (core : κ)
    (task : ℕ) :
    upperLoad placed core task + lowerLoad placed core task =
      coreLoad placed core := by
  rw [upperLoad, lowerLoad, coreLoad, ← List.sum_map_add]
  congr 1
  apply List.map_congr_left
  intro x _
  by_cases hcore : x.core = core
  · by_cases hle : x.piece.task ≤ task
    · simp [hcore, hle]
    · simp [hcore, hle, not_le.mp hle]
  · simp [hcore]

theorem lowerLoad_nonneg {placed : List (Placement κ)}
    (hnonneg : ∀ x ∈ placed, 0 ≤ x.piece.load) (core : κ) (task : ℕ) :
    0 ≤ lowerLoad placed core task := by
  apply List.sum_nonneg
  intro load hload
  obtain ⟨x, hx, rfl⟩ := List.mem_map.mp hload
  split
  · exact hnonneg x hx
  · exact le_rfl

namespace Problem

variable (P : Problem κ) (plan : Plan κ)

/-- Everything on a core. -/
def onCore (core : κ) : Finset (Placement κ) :=
  (plan.placed ++ P.given).toFinset.filter fun x => x.core = core

/-- The pieces on the core of `x` that belong to tasks before its own. -/
def above (x : Placement κ) : Finset (Placement κ) :=
  (P.onCore plan x.core).filter fun y => y.piece.task < x.piece.task

/-- A packing whose pieces take whole ticks of the periods of `count` tasks. -/
structure Timed (period : ℕ → ℕ) (cost : Placement κ → ℕ) (count : ℕ) :
    Prop where
  period_pos : ∀ x ∈ plan.placed ++ P.given, 0 < period x.piece.task
  period_mono : ∀ x ∈ plan.placed ++ P.given, ∀ y ∈ plan.placed ++ P.given,
    x.piece.task ≤ y.piece.task → period x.piece.task ≤ period y.piece.task
  cost_eq : ∀ x ∈ plan.placed ++ P.given,
    (cost x : ℚ) = x.piece.load * period x.piece.task
  load_pos : ∀ x ∈ plan.placed ++ P.given, 0 < x.piece.load
  task_lt : ∀ x ∈ plan.placed ++ P.given, x.piece.task < count

variable {P plan} {period : ℕ → ℕ} {cost : Placement κ → ℕ} {count : ℕ}
  {core : κ} {x y : Placement κ}

theorem mem_onCore : x ∈ P.onCore plan core ↔
    x ∈ plan.placed ++ P.given ∧ x.core = core := by
  rw [onCore, Finset.mem_filter, List.mem_toFinset]

theorem mem_above : y ∈ P.above plan x ↔
    y ∈ P.onCore plan x.core ∧ y.piece.task < x.piece.task := by
  rw [above, Finset.mem_filter]

theorem of_mem_insert_above (hx : x ∈ plan.placed ++ P.given)
    (hy : y ∈ insert x (P.above plan x)) :
    y ∈ P.onCore plan x.core ∧ y.piece.task ≤ x.piece.task := by
  rcases Finset.mem_insert.mp hy with rfl | habove
  · exact ⟨mem_onCore.mpr ⟨hx, rfl⟩, le_rfl⟩
  · rw [mem_above] at habove
    exact ⟨habove.1, habove.2.le⟩

theorem Reaches.nodup (hreach : P.Reaches plan) :
    (plan.placed ++ P.given).Nodup := by
  apply hreach.cores_apart.imp
  intro x y hapart heq
  subst heq
  exact hapart rfl rfl

/-- Two pieces of a task on one core are one piece. -/
theorem Reaches.eq_of_core (hreach : P.Reaches plan)
    (hx : x ∈ P.onCore plan core) (hy : y ∈ P.onCore plan core)
    (htask : x.piece.task = y.piece.task) : x = y := by
  rw [mem_onCore] at hx hy
  by_contra hne
  have hsymm : Std.Symm fun x y : Placement κ =>
      x.piece.task = y.piece.task → x.core ≠ y.core :=
    ⟨fun _ _ hapart htask hcore => hapart htask.symm hcore.symm⟩
  exact hreach.cores_apart.forall hx.1 hy.1 hne htask (hx.2.trans hy.2.symm)

/-- Every placed piece has a load. -/
theorem Reaches.placed_pos (hpos : ∀ p ∈ P.pieces, 0 < p.load)
    (hreach : P.Reaches plan) : ∀ x ∈ plan.placed, 0 < x.piece.load := by
  induction hreach using Reaches.induct with
  | start => exact fun x hx => absurd hx List.not_mem_nil
  | step before after core hreach ih htarget hplaces =>
      have hopen := htarget.open_core
      have hqueue := hreach.queue_pos hpos
      cases hplaces with
      | fit _ =>
          exact List.forall_mem_cons.mpr
            ⟨hqueue _ (List.mem_cons_self ..), ih⟩
      | split _ =>
          exact List.forall_mem_cons.mpr ⟨sub_pos.mpr hopen, ih⟩

/-- A task assigned beforehand has no bodies. -/
theorem Reaches.bodyLoad_given (hreach : P.Reaches plan) (hx : x ∈ P.given) :
    bodyLoad plan.placed x.piece.task = 0 := by
  apply List.sum_eq_zero
  intro load hload
  obtain ⟨y, hy, rfl⟩ := List.mem_map.mp hload
  obtain ⟨q, hq, htask⟩ := hreach.placed_task y hy
  rw [if_neg]
  exact fun hboth => P.given_apart x hx q hq (hboth.2.symm.trans htask.symm)

theorem Reaches.bodyLoad_le_lowerLoad (hreach : P.Reaches plan)
    (hbalanced : P.Balanced) (hx : x ∈ plan.placed ++ P.given)
    (hwhole : x.body = false) :
    P.bound * bodyLoad plan.placed x.piece.task ≤
      lowerLoad (plan.placed ++ P.given) x.core x.piece.task := by
  rcases List.mem_append.mp hx with hplaced | hgiven
  · exact hreach.tail_room hbalanced x hplaced hwhole
  · rw [hreach.bodyLoad_given hgiven, mul_zero]
    apply lowerLoad_nonneg
    exact List.forall_mem_append.mpr ⟨hreach.nonneg.2, P.given_nonneg⟩

/-- The bodies of a task and its last piece make up the task. -/
theorem Reaches.bodyLoad_add_load (hreach : P.Reaches plan) :
    ∀ x ∈ plan.placed, x.body = false →
      bodyLoad plan.placed x.piece.task + x.piece.load =
        taskLoad (· = x.piece.task) P.pieces := by
  induction hreach using Reaches.induct with
  | start => exact fun x hx => absurd hx List.not_mem_nil
  | step before after core hreach ih _ hplaces =>
      have hbehind := hreach.behind
      have hsum := fun p (hp : p ∈ before.queue) => hreach.bodyLoad_add hp
      cases hplaces with
      | @fit placed piece rest _ =>
          rw [List.forall_mem_cons]
          simp only [bodyLoad_cons, Bool.false_eq_true, false_and, if_false,
            zero_add]
          exact ⟨fun _ => hsum piece (List.mem_cons_self ..), ih⟩
      | @split placed piece rest slot _ =>
          rw [List.forall_mem_cons]
          refine ⟨fun hbody => absurd hbody.symm Bool.false_ne_true,
            fun x hx hwhole => ?_⟩
          have hne : piece.task ≠ x.piece.task := by
            intro heq
            have hbody := (hbehind x hx piece (List.mem_cons_self ..)).2 heq
            exact Bool.false_ne_true (hwhole.symm.trans hbody)
          rw [bodyLoad_cons, if_neg fun hboth => hne hboth.2, zero_add]
          exact ih x hx hwhole

/-! ## The pieces above -/

/-- The utilizations of a piece and those above it fit into what the bodies of
its task leave of the bound. -/
theorem Reaches.sum_load_le (hreach : P.Reaches plan) (hbalanced : P.Balanced)
    (hx : x ∈ plan.placed ++ P.given) (hwhole : x.body = false) :
    ∑ y ∈ insert x (P.above plan x), y.piece.load ≤
      P.bound * (1 - bodyLoad plan.placed x.piece.task) := by
  have hnonneg : ∀ y ∈ plan.placed ++ P.given, 0 ≤ y.piece.load :=
    List.forall_mem_append.mpr ⟨hreach.nonneg.2, P.given_nonneg⟩
  have hsubset : insert x (P.above plan x) ⊆
      (plan.placed ++ P.given).toFinset.filter
        fun y => y.core = x.core ∧ y.piece.task ≤ x.piece.task := by
    intro y hy
    obtain ⟨hcore, hle⟩ := of_mem_insert_above hx hy
    rw [mem_onCore] at hcore
    rw [Finset.mem_filter, List.mem_toFinset]
    exact ⟨hcore.1, hcore.2, hle⟩
  have hupper : ∑ y ∈ insert x (P.above plan x), y.piece.load ≤
      upperLoad (plan.placed ++ P.given) x.core x.piece.task := by
    rw [upperLoad, ← List.sum_toFinset _ hreach.nodup, ← Finset.sum_filter]
    apply Finset.sum_le_sum_of_subset_of_nonneg hsubset
    intro y hy _
    rw [Finset.mem_filter, List.mem_toFinset] at hy
    exact hnonneg y hy.1
  have hload := hreach.load_le_bound hbalanced.given_le x.core
  have hcore : P.load plan x.core =
      coreLoad (plan.placed ++ P.given) x.core := by
    rw [load, coreLoad_append, add_comm]
  rw [hcore, ← upperLoad_add_lowerLoad _ _ x.piece.task] at hload
  have hroom := hreach.bodyLoad_le_lowerLoad hbalanced hx hwhole
  linarith

theorem Reaches.card_above_le (hreach : P.Reaches plan)
    (htimed : P.Timed plan period cost count)
    (hx : x ∈ plan.placed ++ P.given) :
    (insert x (P.above plan x)).card ≤ count := by
  have hmem : ∀ y ∈ insert x (P.above plan x), y ∈ P.onCore plan x.core :=
    fun y hy => (of_mem_insert_above hx hy).1
  rw [← Finset.card_range count]
  apply Finset.card_le_card_of_injOn fun y => y.piece.task
  · intro y hy
    exact Finset.mem_coe.mpr (Finset.mem_range.mpr
      (htimed.task_lt y (mem_onCore.mp (hmem y hy)).1))
  · intro y hy z hz htask
    exact hreach.eq_of_core (hmem y hy) (hmem z hz) htask

omit [DecidableEq κ] in
/-- The share of a piece in the time up to a deadline that the bodies of a
later task leave. -/
theorem Timed.share_le (htimed : P.Timed plan period cost count)
    (hx : x ∈ plan.placed ++ P.given) (hy : y ∈ plan.placed ++ P.given)
    (htask : y.piece.task ≤ x.piece.task) {deadline : ℕ} {rest : ℚ}
    (hrest : 0 < rest ∧ rest ≤ 1)
    (hdeadline : (deadline : ℚ) = rest * period x.piece.task) :
    (cost y : ℚ) / (min (period y.piece.task) deadline : ℕ) ≤
      y.piece.load / rest := by
  have hperiod : (0 : ℚ) < period y.piece.task :=
    Nat.cast_pos.mpr (htimed.period_pos y hy)
  have hperiod' : (0 : ℚ) < period x.piece.task :=
    Nat.cast_pos.mpr (htimed.period_pos x hx)
  have hload := htimed.load_pos y hy
  rw [htimed.cost_eq y hy]
  rcases min_cases (period y.piece.task) deadline with ⟨hmin, _⟩ | ⟨hmin, _⟩
  · rw [hmin, mul_div_cancel_right₀ _ hperiod.ne']
    exact le_div_self hload.le hrest.1 hrest.2
  · have hmono : (period y.piece.task : ℚ) ≤ period x.piece.task :=
      Nat.cast_le.mpr (htimed.period_mono y hy x hx htask)
    rw [hmin, hdeadline, div_le_div_iff₀ (mul_pos hrest.1 hperiod') hrest.1]
    calc
      y.piece.load * period y.piece.task * rest ≤
          y.piece.load * period x.piece.task * rest :=
        mul_le_mul_of_nonneg_right
          (mul_le_mul_of_nonneg_left hmono hload.le) hrest.1.le
      _ = y.piece.load * (rest * period x.piece.task) := by ring

/-- The last piece of a task is served within what its bodies leave of the
period. -/
theorem Reaches.exists_demand_le (hreach : P.Reaches plan)
    (hbalanced : P.Balanced) (htimed : P.Timed plan period cost count)
    (hbound : (P.bound : ℝ) ≤ count * (2 ^ (1 / count : ℝ) - 1))
    (hx : x ∈ plan.placed ++ P.given) (hwhole : x.body = false)
    (hbodies : bodyLoad plan.placed x.piece.task < 1) {deadline : ℕ}
    (hdeadline : (deadline : ℚ) =
      (1 - bodyLoad plan.placed x.piece.task) * period x.piece.task) :
    ∃ t ≤ deadline, demand (cost x) (P.above plan x)
      (fun y => period y.piece.task) cost t ≤ t := by
  have hperiod : (0 : ℚ) < period x.piece.task :=
    Nat.cast_pos.mpr (htimed.period_pos x hx)
  have hnonneg := bodyLoad_nonneg hreach.nonneg.2 x.piece.task
  have hrest : 0 < 1 - bodyLoad plan.placed x.piece.task ∧
      1 - bodyLoad plan.placed x.piece.task ≤ 1 := by
    constructor <;> linarith
  have hmem : ∀ y ∈ insert x (P.above plan x),
      y ∈ plan.placed ++ P.given ∧ y.piece.task ≤ x.piece.task := by
    intro y hy
    obtain ⟨hcore, hle⟩ := of_mem_insert_above hx hy
    exact ⟨(mem_onCore.mp hcore).1, hle⟩
  have hshares : ∑ y ∈ insert x (P.above plan x),
      (cost y : ℚ) / (min (period y.piece.task) deadline : ℕ) ≤ P.bound := by
    calc
      ∑ y ∈ insert x (P.above plan x),
            (cost y : ℚ) / (min (period y.piece.task) deadline : ℕ) ≤
          ∑ y ∈ insert x (P.above plan x),
            y.piece.load / (1 - bodyLoad plan.placed x.piece.task) :=
        Finset.sum_le_sum fun y hy => htimed.share_le hx (hmem y hy).1
          (hmem y hy).2 hrest hdeadline
      _ = (∑ y ∈ insert x (P.above plan x), y.piece.load) /
            (1 - bodyLoad plan.placed x.piece.task) :=
        (Finset.sum_div ..).symm
      _ ≤ P.bound := by
        rw [div_le_iff₀ hrest.1]
        exact hreach.sum_load_le hbalanced hx hwhole
  have hprod := prod_one_add_le_two
    (Nat.zero_lt_of_lt (htimed.task_lt x hx)) (hreach.card_above_le htimed hx)
    (fun y _ => div_nonneg (Nat.cast_nonneg (cost y)) (Nat.cast_nonneg _))
    hshares hbound
  have hself : x ∉ P.above plan x := fun hself =>
    lt_irrefl _ (mem_above.mp hself).2
  have hless : deadline ≤ period x.piece.task := by
    have hcast : (deadline : ℚ) ≤ period x.piece.task := by
      rw [hdeadline]
      exact mul_le_of_le_one_left hperiod.le hrest.2
    exact_mod_cast hcast
  rw [Finset.prod_insert hself, min_eq_right hless] at hprod
  apply exists_demand_le_of_min _ _ _ hprod
  · have hcost : (0 : ℚ) < cost x := by
      rw [htimed.cost_eq x hx]
      exact mul_pos (htimed.load_pos x hx) hperiod
    exact_mod_cast hcost
  · have hpos : (0 : ℚ) < deadline := by
      rw [hdeadline]
      exact mul_pos hrest.1 hperiod
    exact_mod_cast hpos
  · intro y hy
    exact htimed.period_pos y (hmem y (Finset.mem_insert_of_mem hy)).1

end Problem

end PicoSched.Filling
