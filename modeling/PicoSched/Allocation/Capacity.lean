import PicoSched.Allocation.Domination

/-!
# Capacity

How much of the cores' capacity a plan uses: the totals that decide whether a
core is still open while pieces wait, and the count of bodies that decides
whether a slot is left for a tail.
-/

namespace PicoSched.Filling.Problem

variable {κ : Type*} [DecidableEq κ] {P : Problem κ} {plan : Plan κ}

/-- The load of all tasks, given beforehand or not. -/
def total (P : Problem κ) : ℚ :=
  taskLoad (fun _ => True) (P.given.map Placement.piece) +
    taskLoad (fun _ => True) P.pieces

/-- A waiting load keeps the cores' load below the total. -/
theorem Reaches.sum_load_lt [Fintype κ] (hreach : P.Reaches plan)
    (hpos : ∀ p ∈ P.pieces, 0 < p.load) (hqueue : plan.queue ≠ []) :
    ∑ core, P.load plan core < P.total := by
  have hsum := hreach.sum_load
  have hwaiting : 0 < taskLoad (fun _ => True) plan.queue := by
    cases hcons : plan.queue with
    | nil => exact absurd hcons hqueue
    | cons piece rest =>
        have hnonneg : ∀ p ∈ rest, 0 ≤ p.load := fun p hp =>
          hreach.nonneg.1 p (hcons ▸ List.mem_cons_of_mem _ hp)
        have hpiece := hreach.queue_pos hpos piece
          (hcons ▸ List.mem_cons_self ..)
        have hrest := taskLoad_nonneg (fun _ => True) hnonneg
        rw [taskLoad_cons, if_pos trivial]
        linarith
  rw [total]
  linarith

/-- While pieces wait, a set of tasks that fits leaves a core open. -/
theorem Reaches.exists_open [Fintype κ] (hreach : P.Reaches plan)
    (hpos : ∀ p ∈ P.pieces, 0 < p.load) (hqueue : plan.queue ≠ [])
    (hfits : P.total ≤ Fintype.card κ * P.bound) :
    ∃ core, P.load plan core < P.bound := by
  by_contra hnone
  have hfull : ∀ core, P.bound ≤ P.load plan core := fun core =>
    not_lt.mp fun hopen => hnone ⟨core, hopen⟩
  have hless := hreach.sum_load_lt hpos hqueue
  have hall : (Fintype.card κ : ℚ) * P.bound ≤ ∑ core, P.load plan core := by
    calc
      (Fintype.card κ : ℚ) * P.bound = ∑ _core : κ, P.bound := by simp
      _ ≤ ∑ core, P.load plan core := Finset.sum_le_sum fun core _ => hfull core
  linarith

/-! ## Bodies -/

/-- No core hosts two bodies. -/
theorem Reaches.bodies_nodup (hreach : P.Reaches plan) :
    ((plan.placed.filter Placement.body).map Placement.core).Nodup := by
  rw [List.Nodup, List.pairwise_map]
  refine (hreach.on_top.filter _).imp_of_mem ?_
  intro x y _ hy habove heq
  have hbody := (List.mem_filter.mp hy).2
  rw [(habove heq).1] at hbody
  exact Bool.false_ne_true hbody

/-- When there is one body less than there are cores, every core but an open
one hosts a body. -/
theorem Reaches.hosts_of_bodies [Fintype κ] (hreach : P.Reaches plan) {core : κ}
    (hopen : P.load plan core < P.bound)
    (hcount : Fintype.card κ ≤
      (plan.placed.filter Placement.body).length + 1) (other : κ)
    (hother : other ≠ core) :
    ∃ x ∈ plan.placed, x.core = other ∧ x.body = true := by
  have hfree : core ∉ (plan.placed.filter Placement.body).map Placement.core := by
    intro hmem
    obtain ⟨x, hx, rfl⟩ := List.mem_map.mp hmem
    obtain ⟨hx, hbody⟩ := List.mem_filter.mp hx
    exact hopen.ne (hreach.body_full x hx hbody)
  -- the hosts and the open core make up all cores
  have hnodup := List.nodup_cons.mpr ⟨hfree, hreach.bodies_nodup⟩
  have hcard := List.toFinset_card_of_nodup hnodup
  rw [List.length_cons, List.length_map] at hcard
  have hall : (core :: (plan.placed.filter Placement.body).map
      Placement.core).toFinset = Finset.univ :=
    Finset.eq_univ_of_card _ (le_antisymm (Finset.card_le_univ _)
      (hcard ▸ hcount))
  have hmem := Finset.mem_univ other
  rw [← hall, List.mem_toFinset, List.mem_cons] at hmem
  obtain ⟨x, hx, hxcore⟩ := List.mem_map.mp (hmem.resolve_left hother)
  obtain ⟨hx, hbody⟩ := List.mem_filter.mp hx
  exact ⟨x, hx, hxcore, hbody⟩

theorem Reaches.full_of_bodies [Fintype κ] (hreach : P.Reaches plan) {core : κ}
    (hopen : P.load plan core < P.bound)
    (hcount : Fintype.card κ ≤
      (plan.placed.filter Placement.body).length + 1) (other : κ)
    (hother : other ≠ core) : P.load plan other = P.bound := by
  obtain ⟨x, hx, rfl, hbody⟩ :=
    hreach.hosts_of_bodies hopen hcount other hother
  exact hreach.body_full x hx hbody

/-- A split needs more capacity than a fitting set of tasks has left when the
bodies have used up the slots. -/
theorem Reaches.slot_left [Fintype κ] (hreach : P.Reaches plan)
    (hfits : P.total ≤ Fintype.card κ * P.bound) {piece : Piece}
    {rest : List Piece} (hqueue : plan.queue = piece :: rest) {core : κ}
    (hopen : P.load plan core < P.bound)
    (hover : P.bound < P.load plan core + piece.load) :
    (plan.placed.filter Placement.body).length + 1 < Fintype.card κ := by
  by_contra hcount
  have hfull := hreach.full_of_bodies hopen (not_lt.mp hcount)
  have hsum := hreach.sum_load
  have hload : ∑ c, P.load plan c =
      P.load plan core + (Fintype.card κ - 1) * P.bound := by
    have hcard : ((Finset.univ.erase core).card : ℚ) = Fintype.card κ - 1 := by
      rw [Finset.card_erase_of_mem (Finset.mem_univ core), Finset.card_univ,
        Nat.cast_sub (Fintype.card_pos_iff.mpr ⟨core⟩), Nat.cast_one]
    rw [← Finset.add_sum_erase _ _ (Finset.mem_univ core), ← hcard,
      ← nsmul_eq_mul, ← Finset.sum_const]
    congr 1
    exact Finset.sum_congr rfl fun c hc => hfull c (Finset.ne_of_mem_erase hc)
  have hwaiting : piece.load ≤ taskLoad (fun _ => True) plan.queue := by
    have hnonneg : ∀ p ∈ rest, 0 ≤ p.load := fun p hp =>
      hreach.nonneg.1 p (hqueue ▸ List.mem_cons_of_mem _ hp)
    have hrest := taskLoad_nonneg (fun _ => True) hnonneg
    rw [hqueue, taskLoad_cons, if_pos trivial]
    linarith
  rw [total] at hfits
  linarith

/-! ## The reserve -/

/-- Everything that has been placed, and the task on the first reserve core,
is on the ordinary cores and that core. -/
theorem Reaches.sum_used (hreach : P.Reaches plan) {x : Placement κ}
    (hx : x ∈ P.given) (hhead : P.reserve.head? = some x.core) :
    ∑ core ∈ P.normal, P.load plan core + P.load plan x.core =
      x.piece.load +
        taskLoad (fun _ => True) (plan.placed.map Placement.piece) := by
  have hplaced := hreach.placed_load_of_head hhead
  have hall : taskLoad (fun _ => True) (plan.placed.map Placement.piece) =
      (plan.placed.map fun x => x.piece.load).sum := by
    rw [taskLoad, List.map_map]
    simp only [if_true]
    rfl
  rw [hall, hplaced]
  simp only [load]
  rw [coreLoad_given hx]
  ring

end PicoSched.Filling.Problem
