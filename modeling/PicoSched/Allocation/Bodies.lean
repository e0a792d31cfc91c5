import PicoSched.Allocation.Filling

/-!
# Bodies dominate their core

A body fills its core, so nothing follows it there; everything placed before
it belongs to a later task.  On a reserve core this includes the task assigned
beforehand: the tasks behind that one fit on the ordinary cores, so none of
them is left when the reserve core is opened.
-/

namespace PicoSched.Filling.Problem

variable {κ : Type*} [DecidableEq κ] {P : Problem κ}

/-! ## Loads along the phase -/

theorem Places.load_of_ne {before after : Plan κ} {core other : κ}
    (hplaces : P.Places core before after) (hother : other ≠ core) :
    P.load after other = P.load before other := by
  cases hplaces with
  | fit _ => simp [load, hother.symm]
  | split _ => simp [load, hother.symm]

theorem Places.load_core_le {before after : Plan κ} {core : κ}
    (hplaces : P.Places core before after) : P.load after core ≤ P.bound := by
  cases hplaces with
  | fit hfit =>
      simp only [load, coreLoad_cons, if_true] at hfit ⊢
      linarith
  | split _ =>
      simp only [load, coreLoad_cons, if_true]
      linarith

theorem Places.load_le {before after : Plan κ} {core : κ}
    (hplaces : P.Places core before after) (htarget : P.Target before core)
    (hnonneg : ∀ p ∈ before.queue, 0 ≤ p.load) (other : κ) :
    P.load before other ≤ P.load after other := by
  by_cases hother : other = core
  · subst hother
    have hopen := htarget.open_core
    cases hplaces with
    | @fit placed piece rest _ =>
        have hpiece := hnonneg piece (List.mem_cons_self ..)
        simp only [load, coreLoad_cons, if_true] at hpiece ⊢
        linarith
    | split _ =>
        simp only [load, coreLoad_cons, if_true] at hopen ⊢
        linarith
  · rw [hplaces.load_of_ne hother]

/-- Ordinary cores carry nothing assigned beforehand. -/
theorem load_of_mem_normal (plan : Plan κ) {core : κ}
    (hcore : core ∈ P.normal) : P.load plan core = coreLoad plan.placed core := by
  have hgiven : coreLoad P.given core = 0 := by
    apply List.sum_eq_zero
    intro load hload
    obtain ⟨x, hx, rfl⟩ := List.mem_map.mp hload
    have hne : x.core ≠ core := fun heq =>
      P.apart x.core (P.given_reserve x hx) (heq ▸ hcore)
    simp [hne]
  rw [load, hgiven, zero_add]

/-- A reserve core starts with the load of its one task. -/
theorem coreLoad_given {x : Placement κ} (hx : x ∈ P.given) :
    coreLoad P.given x.core = x.piece.load := by
  have hsingle := P.given_single
  generalize P.given = given at hx hsingle
  induction given with
  | nil => simp at hx
  | cons y given ih =>
      rw [List.pairwise_cons] at hsingle
      rcases List.mem_cons.mp hx with rfl | htail
      · have hzero : coreLoad given x.core = 0 := by
          apply List.sum_eq_zero
          intro load hload
          obtain ⟨z, hz, rfl⟩ := List.mem_map.mp hload
          simp [(hsingle.1 z hz).symm]
        simp [hzero]
      · rw [coreLoad_cons, if_neg (hsingle.1 x htail), zero_add]
        exact ih htail hsingle.2

theorem le_load_of_given (plan : Plan κ) {x : Placement κ} (hx : x ∈ P.given)
    (hnonneg : ∀ y ∈ plan.placed, 0 ≤ y.piece.load) :
    x.piece.load ≤ P.load plan x.core := by
  rw [load, coreLoad_given hx]
  linarith [coreLoad_nonneg hnonneg x.core]

/-- A core past the bound carries the task it was given beforehand and nothing
else. -/
theorem Reaches.load_le_or_given {plan : Plan κ} (hreach : P.Reaches plan)
    (core : κ) :
    P.load plan core ≤ P.bound ∨
      ∃ x ∈ P.given, x.core = core ∧ P.bound < x.piece.load ∧
        ∀ y ∈ plan.placed, y.core ≠ core := by
  induction hreach using Reaches.induct with
  | start =>
      by_cases hhost : ∃ x ∈ P.given, x.core = core
      · obtain ⟨x, hx, rfl⟩ := hhost
        have hload : P.load ⟨[], P.pieces⟩ x.core = x.piece.load := by
          rw [load, coreLoad_given hx, coreLoad_nil, add_zero]
        rw [hload]
        rcases le_or_gt x.piece.load P.bound with hle | hover
        · exact .inl hle
        · exact .inr ⟨x, hx, rfl, hover, nofun⟩
      · have hzero : coreLoad P.given core = 0 := by
          apply List.sum_eq_zero
          intro load hload
          obtain ⟨x, hx, rfl⟩ := List.mem_map.mp hload
          exact if_neg fun heq => hhost ⟨x, hx, heq⟩
        left
        rw [load, hzero, coreLoad_nil, add_zero]
        exact P.bound_pos.le
  | step before after placedCore hreach ih htarget hplaces =>
      by_cases hcore : core = placedCore
      · subst hcore
        exact .inl hplaces.load_core_le
      · rw [hplaces.load_of_ne hcore]
        rcases ih with hle | ⟨x, hx, hhost, hover, hnone⟩
        · exact .inl hle
        · refine .inr ⟨x, hx, hhost, hover, ?_⟩
          cases hplaces with
          | fit _ => exact List.forall_mem_cons.mpr ⟨Ne.symm hcore, hnone⟩
          | split _ => exact List.forall_mem_cons.mpr ⟨Ne.symm hcore, hnone⟩

/-- No core is filled past the bound when no task given beforehand is larger
than the bound. -/
theorem Reaches.load_le_bound (hgiven : ∀ x ∈ P.given, x.piece.load ≤ P.bound)
    {plan : Plan κ} (hreach : P.Reaches plan) (core : κ) :
    P.load plan core ≤ P.bound := by
  rcases hreach.load_le_or_given core with hle | ⟨x, hx, _, hover, _⟩
  · exact hle
  · exact absurd hover (not_lt.mpr (hgiven x hx))

/-- Placements are on ordinary cores, or on the first reserve core when every
ordinary core is full. -/
theorem Reaches.core_mem {plan : Plan κ} (hreach : P.Reaches plan) :
    ∀ x ∈ plan.placed, x.core ∈ P.normal ∨
      (P.reserve.head? = some x.core ∧
        ∀ core ∈ P.normal, P.bound ≤ P.load plan core) := by
  induction hreach using Reaches.induct with
  | start => simp
  | step before after core hreach ih htarget hplaces =>
      have hmono := hplaces.load_le htarget hreach.nonneg.1
      have hnew : core ∈ P.normal ∨ (P.reserve.head? = some core ∧
          ∀ other ∈ P.normal, P.bound ≤ P.load after other) := by
        cases htarget with
        | normal hmem _ _ => exact .inl hmem
        | reserve hfull hhead _ =>
            exact .inr ⟨hhead, fun other hother =>
              (hfull other hother).trans (hmono other)⟩
      have hold : ∀ x ∈ before.placed, x.core ∈ P.normal ∨
          (P.reserve.head? = some x.core ∧
            ∀ other ∈ P.normal, P.bound ≤ P.load after other) := by
        intro x hx
        rcases ih x hx with hmem | ⟨hhead, hfull⟩
        · exact .inl hmem
        · exact .inr ⟨hhead, fun other hother =>
            (hfull other hother).trans (hmono other)⟩
      cases hplaces with
      | fit _ => exact List.forall_mem_cons.mpr ⟨hnew, hold⟩
      | split _ => exact List.forall_mem_cons.mpr ⟨hnew, hold⟩

/-- A core that hosts a body is filled exactly. -/
theorem Reaches.body_full {plan : Plan κ} (hreach : P.Reaches plan) :
    ∀ x ∈ plan.placed, x.body = true → P.load plan x.core = P.bound := by
  induction hreach using Reaches.induct with
  | start => simp
  | step before after core hreach ih htarget hplaces =>
      have hold : ∀ x ∈ before.placed, x.body = true →
          P.load after x.core = P.bound := by
        intro x hx hbody
        have hfull := ih x hx hbody
        have hne : x.core ≠ core := by
          intro heq
          exact htarget.open_core.ne (heq ▸ hfull)
        rw [hplaces.load_of_ne hne, hfull]
      cases hplaces with
      | fit _ => exact List.forall_mem_cons.mpr ⟨by simp, hold⟩
      | split _ =>
          refine List.forall_mem_cons.mpr ⟨fun _ => ?_, hold⟩
          simp only [load, coreLoad_cons, if_true]
          ring

/-- What is placed on a core comes before everything already there, and never
on top of a body. -/
theorem Reaches.on_top {plan : Plan κ} (hreach : P.Reaches plan) :
    plan.placed.Pairwise fun x y => x.core = y.core →
      y.body = false ∧ x.piece.task < y.piece.task := by
  induction hreach using Reaches.induct with
  | start => exact List.Pairwise.nil
  | step before after core hreach ih htarget hplaces =>
      have hwhole : ∀ y ∈ before.placed, core = y.core → y.body = false := by
        intro y hy heq
        by_contra hbody
        have hfull := hreach.body_full y hy (by simpa using hbody)
        exact htarget.open_core.ne (heq ▸ hfull)
      have hbefore : ∀ p ∈ before.queue, ∀ y ∈ before.placed, core = y.core →
          y.body = false ∧ p.task < y.piece.task := by
        intro p hp y hy heq
        obtain ⟨hle, hbody⟩ := hreach.behind y hy p hp
        refine ⟨hwhole y hy heq, lt_of_le_of_ne hle fun htask => ?_⟩
        simp [hwhole y hy heq] at hbody
        exact hbody htask
      cases hplaces with
      | fit _ =>
          exact List.pairwise_cons.mpr
            ⟨hbefore _ (List.mem_cons_self ..), ih⟩
      | @split placed piece rest slot _ =>
          exact List.pairwise_cons.mpr
            ⟨hbefore piece (List.mem_cons_self ..), ih⟩

/-! ## The first reserve core -/

/-- Every waiting piece belongs to one of the tasks the phase started with. -/
theorem Reaches.queue_task {plan : Plan κ} (hreach : P.Reaches plan) :
    ∀ p ∈ plan.queue, ∃ q ∈ P.pieces, q.task = p.task := by
  induction hreach using Reaches.induct with
  | start => exact fun p hp => ⟨p, hp, rfl⟩
  | step before after core hreach ih htarget hplaces =>
      rw [← List.forall_mem_map (f := Piece.task)
        (P := fun task => ∃ q ∈ P.pieces, q.task = task)] at ih ⊢
      cases hplaces with
      | fit _ => exact (List.forall_mem_cons.mp ih).2
      | split _ => exact ih

/-- When a piece with a positive load goes to a reserve core, its task comes
before the task assigned there beforehand. -/
theorem Reaches.lt_given {plan : Plan κ} (hreach : P.Reaches plan)
    {piece : Piece} {rest : List Piece} (hqueue : plan.queue = piece :: rest)
    (hpos : 0 < piece.load) {core : κ} (htarget : P.Target plan core)
    {x : Placement κ} (hx : x ∈ P.given) (hcore : x.core = core) :
    piece.task < x.piece.task := by
  have hmem : piece ∈ plan.queue := hqueue ▸ List.mem_cons_self ..
  have hreserve := P.given_reserve x hx
  cases htarget with
  | normal hnormal _ _ => exact absurd hnormal (P.apart core (hcore ▸ hreserve))
  | reserve hfull hhead _ =>
      by_contra hle
      have hne : piece.task ≠ x.piece.task := by
        obtain ⟨q, hq, htask⟩ := hreach.queue_task piece hmem
        exact htask ▸ (P.given_apart x hx q hq).symm
      have hlater : x.piece.task < piece.task := by omega
      -- the ordinary cores hold only tasks behind `x`, and are full of them
      have hplaced : (P.normal.card : ℚ) * P.bound ≤
          taskLoad (x.piece.task < ·) (plan.placed.map Placement.piece) := by
        calc
          (P.normal.card : ℚ) * P.bound =
              ∑ _other ∈ P.normal, P.bound := by simp
          _ ≤ ∑ other ∈ P.normal, coreLoad plan.placed other := by
              apply Finset.sum_le_sum
              intro other hother
              rw [← load_of_mem_normal plan hother]
              exact hfull other hother
          _ ≤ taskLoad (x.piece.task < ·) (plan.placed.map Placement.piece) := by
              apply sum_coreLoad_le_taskLoad _ hreach.nonneg.2
              intro y hy _
              exact hlater.trans_le (hreach.behind y hy piece hmem).1
      have hwaiting : piece.load ≤ taskLoad (x.piece.task < ·) plan.queue := by
        rw [hqueue, taskLoad_cons, if_pos hlater]
        have hrest : ∀ p ∈ rest, 0 ≤ p.load := fun p hp =>
          hreach.nonneg.1 p (hqueue ▸ List.mem_cons_of_mem _ hp)
        linarith [taskLoad_nonneg (x.piece.task < ·) hrest]
      have htotal := hreach.taskLoad_eq (x.piece.task < ·)
      have haffordable := P.affordable x hx (hcore ▸ hhead)
      linarith

/-- A body on a reserve core comes before the task assigned there
beforehand. -/
theorem Reaches.body_lt_given {plan : Plan κ} (hreach : P.Reaches plan) :
    ∀ x ∈ plan.placed, x.body = true → ∀ y ∈ P.given, x.core = y.core →
      x.piece.task < y.piece.task := by
  induction hreach using Reaches.induct with
  | start => simp
  | step before after core hreach ih htarget hplaces =>
      have hopen := htarget.open_core
      cases hplaces with
      | fit _ => exact List.forall_mem_cons.mpr ⟨by simp, ih⟩
      | split hover =>
          refine List.forall_mem_cons.mpr ⟨fun _ y hy hcore => ?_, ih⟩
          exact hreach.lt_given rfl (by linarith) htarget hy hcore.symm

end PicoSched.Filling.Problem
