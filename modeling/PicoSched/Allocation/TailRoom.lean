import PicoSched.Allocation.Bodies

/-!
# Room for the tails

The last piece of a split task has less than a period left when its bodies are
done.  It still fits because its core carries enough load of later tasks: at
least the bound times the load of the bodies.  For a light task this is the
choice of the least loaded core; for a heavy task that was not assigned
beforehand it is the load of the tasks behind it.
-/

namespace PicoSched.Filling

variable {κ : Type*} [DecidableEq κ]

/-- The load of the bodies cut off from one task. -/
def bodyLoad (placed : List (Placement κ)) (task : ℕ) : ℚ :=
  (placed.map fun x =>
    if x.body = true ∧ x.piece.task = task then x.piece.load else 0).sum

/-- The load on a core that belongs to tasks behind `task`. -/
def lowerLoad (placed : List (Placement κ)) (core : κ) (task : ℕ) : ℚ :=
  (placed.map fun x =>
    if x.core = core ∧ task < x.piece.task then x.piece.load else 0).sum

omit [DecidableEq κ] in
@[simp]
theorem bodyLoad_cons (x : Placement κ) (placed : List (Placement κ))
    (task : ℕ) :
    bodyLoad (x :: placed) task =
      (if x.body = true ∧ x.piece.task = task then x.piece.load else 0) +
        bodyLoad placed task := by
  simp [bodyLoad]

@[simp]
theorem lowerLoad_cons (x : Placement κ) (placed : List (Placement κ))
    (core : κ) (task : ℕ) :
    lowerLoad (x :: placed) core task =
      (if x.core = core ∧ task < x.piece.task then x.piece.load else 0) +
        lowerLoad placed core task := by
  simp [lowerLoad]

/-- Tasks in falling order are met once each. -/
theorem taskLoad_eq_of_mem {pieces : List Piece}
    (hdescending : pieces.Pairwise fun p q => q.task < p.task)
    {piece : Piece} (hpiece : piece ∈ pieces) :
    taskLoad (· = piece.task) pieces = piece.load := by
  induction pieces with
  | nil => simp at hpiece
  | cons first pieces ih =>
      rw [List.pairwise_cons] at hdescending
      rcases List.mem_cons.mp hpiece with rfl | htail
      · have hrest : taskLoad (· = piece.task) pieces = 0 := by
          apply List.sum_eq_zero
          intro load hload
          obtain ⟨p, hp, rfl⟩ := List.mem_map.mp hload
          rw [if_neg (hdescending.1 p hp).ne]
        rw [taskLoad_cons, if_pos rfl, hrest, add_zero]
      · rw [taskLoad_cons, if_neg (hdescending.1 piece htail).ne', zero_add]
        exact ih hdescending.2 htail

theorem coreLoad_append (first second : List (Placement κ)) (core : κ) :
    coreLoad (first ++ second) core =
      coreLoad first core + coreLoad second core := by
  simp [coreLoad]

omit [DecidableEq κ] in
theorem bodyLoad_nonneg {placed : List (Placement κ)}
    (hnonneg : ∀ x ∈ placed, 0 ≤ x.piece.load) (task : ℕ) :
    0 ≤ bodyLoad placed task := by
  apply List.sum_nonneg
  intro load hload
  obtain ⟨x, hx, rfl⟩ := List.mem_map.mp hload
  split
  · exact hnonneg x hx
  · exact le_rfl

/-- If everything on the core belongs to tasks behind `task`, its whole load
does. -/
theorem lowerLoad_eq_coreLoad {placed : List (Placement κ)} {core : κ}
    {task : ℕ} (hlater : ∀ x ∈ placed, x.core = core → task < x.piece.task) :
    lowerLoad placed core task = coreLoad placed core := by
  rw [lowerLoad, coreLoad]
  congr 1
  apply List.map_congr_left
  intro x hx
  by_cases hcore : x.core = core
  · simp [hcore, hlater x hx hcore]
  · simp [hcore]

namespace Problem

variable {P : Problem κ}

/-- What the selection of the tasks assigned beforehand guarantees about the
tasks left over: each is light, or the tasks behind it nearly fill the
ordinary cores. -/
structure Balanced (P : Problem κ) : Prop where
  bound_le_one : P.bound ≤ 1
  pos : ∀ p ∈ P.pieces, 0 < p.load
  given_le : ∀ x ∈ P.given, x.piece.load ≤ P.bound
  given_heavy : ∀ x ∈ P.given, P.bound / (1 + P.bound) < x.piece.load
  light_or_heavy : ∀ p ∈ P.pieces, p.load ≤ P.bound / (1 + P.bound) ∨
    (P.normal.card * P.bound - P.bound < taskLoad (p.task < ·) P.pieces ∧
      ∀ x ∈ P.given, P.reserve.head? = some x.core →
        p.task < x.piece.task →
          P.normal.card * P.bound - x.piece.load <
            taskLoad (p.task < ·) P.pieces)

/-! ## The bodies of the piece at the head of the queue -/

/-- The bodies of a waiting piece are all that has been placed of its task. -/
theorem Reaches.bodyLoad_eq {plan : Plan κ} (hreach : P.Reaches plan)
    {piece : Piece} (hpiece : piece ∈ plan.queue) :
    bodyLoad plan.placed piece.task =
      taskLoad (· = piece.task) (plan.placed.map Placement.piece) := by
  rw [bodyLoad, taskLoad, List.map_map]
  congr 1
  apply List.map_congr_left
  intro x hx
  have hbody := (hreach.behind x hx piece hpiece).2
  by_cases htask : x.piece.task = piece.task
  · simp [htask, hbody htask.symm]
  · simp [htask]

/-- The bodies and the waiting piece make up the task. -/
theorem Reaches.bodyLoad_add {plan : Plan κ} (hreach : P.Reaches plan)
    {piece : Piece} (hpiece : piece ∈ plan.queue) :
    bodyLoad plan.placed piece.task + piece.load =
      taskLoad (· = piece.task) P.pieces := by
  have htotal := hreach.taskLoad_eq (· = piece.task)
  rw [taskLoad_eq_of_mem hreach.descending hpiece] at htotal
  rw [hreach.bodyLoad_eq hpiece, htotal]

/-- What is placed of the tasks behind the head of the queue is all there is
of them. -/
theorem Reaches.taskLoad_later {plan : Plan κ} (hreach : P.Reaches plan)
    {piece : Piece} {rest : List Piece} (hqueue : plan.queue = piece :: rest) :
    taskLoad (piece.task < ·) (plan.placed.map Placement.piece) =
      taskLoad (piece.task < ·) P.pieces := by
  have hdescending := hreach.descending
  rw [hqueue, List.pairwise_cons] at hdescending
  have hqueue' : taskLoad (piece.task < ·) plan.queue = 0 := by
    apply List.sum_eq_zero
    intro load hload
    obtain ⟨p, hp, rfl⟩ := List.mem_map.mp hload
    have hle : p.task ≤ piece.task := by
      rw [hqueue] at hp
      rcases List.mem_cons.mp hp with rfl | hp
      · exact le_rfl
      · exact (hdescending.1 p hp).le
    rw [if_neg hle.not_gt]
  have htotal := hreach.taskLoad_eq (piece.task < ·)
  rwa [hqueue', add_zero] at htotal

/-- Everything placed belongs to the head's task, as a body, or comes
behind it. -/
theorem Reaches.placed_load_eq {plan : Plan κ} (hreach : P.Reaches plan)
    {piece : Piece} {rest : List Piece} (hqueue : plan.queue = piece :: rest) :
    (plan.placed.map fun x => x.piece.load).sum =
      taskLoad (piece.task < ·) P.pieces + bodyLoad plan.placed piece.task := by
  have hmem : piece ∈ plan.queue := hqueue ▸ List.mem_cons_self ..
  rw [← hreach.taskLoad_later hqueue, hreach.bodyLoad_eq hmem, taskLoad,
    taskLoad, List.map_map, List.map_map, ← List.sum_map_add]
  congr 1
  apply List.map_congr_left
  intro x hx
  have hle := (hreach.behind x hx piece hmem).1
  rcases hle.lt_or_eq with hless | heq
  · simp [hless, hless.ne']
  · simp [heq]

/-- Once a body of the waiting piece is placed, the ordinary cores carry all
but its load. -/
theorem Reaches.bound_sub_le {plan : Plan κ} (hreach : P.Reaches plan) :
    ∀ p ∈ plan.queue, 0 < bodyLoad plan.placed p.task →
      ∀ core ∈ P.normal,
        P.bound - bodyLoad plan.placed p.task ≤ P.load plan core := by
  induction hreach using Reaches.induct with
  | start => simp [bodyLoad]
  | step before after placedCore hreach ih htarget hplaces =>
      have hmono := hplaces.load_le htarget hreach.nonneg.1
      cases hplaces with
      | @fit placed piece rest _ =>
          intro p hp hpos core hcore
          simp only [bodyLoad_cons, Bool.false_eq_true, false_and, if_false,
            zero_add] at hpos ⊢
          exact (ih p (List.mem_cons_of_mem _ hp) hpos core hcore).trans
            (hmono core)
      | @split placed piece rest slot _ =>
          have hnonneg := bodyLoad_nonneg hreach.nonneg.2 piece.task
          have hdescending := hreach.descending
          rw [List.pairwise_cons] at hdescending
          rw [List.forall_mem_cons]
          constructor
          · intro _ core hcore
            simp only [bodyLoad_cons, and_self, if_true]
            have hcoreLe := hmono core
            cases htarget with
            | normal _ _ hleast =>
                have := hleast core hcore
                linarith
            | reserve hfull _ hopen =>
                have := hfull core hcore
                linarith
          · intro p hp hpos core hcore
            have hne : piece.task ≠ p.task := (hdescending.1 p hp).ne'
            simp only [bodyLoad_cons, hne, and_false, if_false, zero_add]
              at hpos ⊢
            exact (ih p (List.mem_cons_of_mem _ hp) hpos core hcore).trans
              (hmono core)

/-! ## The room of a fitting piece -/

section Fit

variable {plan : Plan κ} {piece : Piece} {rest : List Piece} {core : κ}

/-- The load of the ordinary cores is what has been placed on them. -/
theorem sum_normal_load (plan : Plan κ) :
    ∑ other ∈ P.normal, P.load plan other =
      (plan.placed.map fun x =>
        if x.core ∈ P.normal then x.piece.load else 0).sum := by
  rw [← sum_coreLoad]
  exact Finset.sum_congr rfl fun other hother => load_of_mem_normal plan hother

/-- A heavy piece on an ordinary core. -/
theorem Reaches.bodyLoad_lt_of_normal (hreach : P.Reaches plan)
    (hgiven : ∀ x ∈ P.given, x.piece.load ≤ P.bound)
    (hqueue : plan.queue = piece :: rest)
    (hcore : core ∈ P.normal) (hopen : P.load plan core < P.bound)
    (hheavy : P.normal.card * P.bound - P.bound <
      taskLoad (piece.task < ·) P.pieces) :
    bodyLoad plan.placed piece.task < P.load plan core := by
  have hall : ∀ x ∈ plan.placed, x.core ∈ P.normal := by
    intro x hx
    rcases hreach.core_mem x hx with hmem | ⟨_, hfull⟩
    · exact hmem
    · exact absurd (hfull core hcore) hopen.not_ge
  have hsum : ∑ other ∈ P.normal, P.load plan other =
      taskLoad (piece.task < ·) P.pieces + bodyLoad plan.placed piece.task := by
    rw [sum_normal_load, ← hreach.placed_load_eq hqueue]
    congr 1
    apply List.map_congr_left
    intro x hx
    rw [if_pos (hall x hx)]
  have hothers : ∑ other ∈ P.normal.erase core, P.load plan other ≤
      (P.normal.erase core).card * P.bound := by
    rw [← nsmul_eq_mul]
    exact Finset.sum_le_card_nsmul _ _ _ fun other _ =>
      hreach.load_le_bound hgiven other
  have hcard : ((P.normal.erase core).card : ℚ) = P.normal.card - 1 := by
    rw [Finset.card_erase_of_mem hcore, Nat.cast_sub
      (Finset.card_pos.mpr ⟨core, hcore⟩), Nat.cast_one]
  rw [← Finset.add_sum_erase _ _ hcore] at hsum
  rw [hcard] at hothers
  linarith

/-- What has been placed is on the ordinary cores and the first reserve
core. -/
theorem Reaches.placed_load_of_head (hreach : P.Reaches plan)
    (hhead : P.reserve.head? = some core) :
    (plan.placed.map fun x => x.piece.load).sum =
      ∑ other ∈ P.normal, P.load plan other + coreLoad plan.placed core := by
  have hmem : core ∉ P.normal := P.apart core (List.mem_of_head? hhead)
  rw [sum_normal_load, coreLoad, ← List.sum_map_add]
  congr 1
  apply List.map_congr_left
  intro x hx
  rcases hreach.core_mem x hx with hnormal | ⟨hcore, _⟩
  · have hne : x.core ≠ core := fun heq => hmem (heq ▸ hnormal)
    simp [hnormal, hne]
  · have heq : x.core = core := by
      simpa [hhead, eq_comm] using hcore
    simp [heq, hmem]

/-- A heavy piece on the first reserve core. -/
theorem Reaches.bodyLoad_lt_of_reserve (hreach : P.Reaches plan)
    (hgiven : ∀ x ∈ P.given, x.piece.load ≤ P.bound)
    (hqueue : plan.queue = piece :: rest)
    (hfull : ∀ other ∈ P.normal, P.bound ≤ P.load plan other)
    (hhead : P.reserve.head? = some core)
    {x : Placement κ} (hx : x ∈ P.given) (hxcore : x.core = core)
    (hheavy : P.normal.card * P.bound - x.piece.load <
      taskLoad (piece.task < ·) P.pieces) :
    bodyLoad plan.placed piece.task < P.load plan core := by
  have hnormal : ∑ other ∈ P.normal, P.load plan other =
      P.normal.card * P.bound := by
    rw [Finset.sum_congr rfl fun other hother =>
      le_antisymm (hreach.load_le_bound hgiven other) (hfull other hother)]
    simp
  have hplaced := hreach.placed_load_of_head hhead
  rw [hreach.placed_load_eq hqueue, hnormal, ← hxcore] at hplaced
  rw [load, ← hxcore, coreLoad_given hx]
  linarith

/-- The core a piece is placed on carries at least the bound times the load
of the bodies of its task. -/
theorem Reaches.bound_mul_bodyLoad_le (hreach : P.Reaches plan)
    (hbalanced : P.Balanced) (hqueue : plan.queue = piece :: rest)
    (htarget : P.Target plan core) :
    P.bound * bodyLoad plan.placed piece.task ≤ P.load plan core := by
  have hmem : piece ∈ plan.queue := hqueue ▸ List.mem_cons_self ..
  have hpos := hreach.queue_pos hbalanced.pos piece hmem
  have hbodies := bodyLoad_nonneg hreach.nonneg.2 piece.task
  have hbound := P.bound_pos
  obtain ⟨origin, horigin, htask⟩ := hreach.queue_task piece hmem
  have hless : bodyLoad plan.placed piece.task < origin.load := by
    have hsum := hreach.bodyLoad_add hmem
    rw [← htask, taskLoad_eq_of_mem P.descending horigin, htask] at hsum
    linarith
  have hshrink : P.bound * bodyLoad plan.placed piece.task ≤
      bodyLoad plan.placed piece.task :=
    mul_le_of_le_one_left hbodies hbalanced.bound_le_one
  cases htarget with
  | normal hcore hopen hleast =>
      rcases hbalanced.light_or_heavy origin horigin with hlight | ⟨hheavy, _⟩
      · rcases hbodies.eq_or_lt with hzero | hbody
        · rw [← hzero, mul_zero, load_of_mem_normal plan hcore]
          exact coreLoad_nonneg hreach.nonneg.2 core
        · have hroom := hreach.bound_sub_le piece hmem hbody core hcore
          have hsmall : bodyLoad plan.placed piece.task * (1 + P.bound) ≤
              P.bound :=
            (le_div_iff₀ (by linarith)).mp (hless.le.trans hlight)
          linarith
      · have hlower := hreach.bodyLoad_lt_of_normal hbalanced.given_le hqueue
          hcore hopen (htask ▸ hheavy)
        exact hshrink.trans hlower.le
  | reserve hfull hhead hopen =>
      obtain ⟨x, hx, hxcore⟩ := P.reserve_given core (List.mem_of_head? hhead)
      rcases hbalanced.light_or_heavy origin horigin with hlight | ⟨_, hheavy⟩
      · have hlarge := hbalanced.given_heavy x hx
        have hload := le_load_of_given plan hx hreach.nonneg.2
        rw [hxcore] at hload
        linarith
      · have hbehind := hreach.lt_given hqueue hpos
          (.reserve hfull hhead hopen) hx hxcore
        have hlower := hreach.bodyLoad_lt_of_reserve hbalanced.given_le hqueue
          hfull hhead hx hxcore
          (htask ▸ hheavy x hx (hxcore ▸ hhead) (htask ▸ hbehind))
        exact hshrink.trans hlower.le

end Fit

/-! ## The room of every tail -/

/-- Before a piece is placed, everything on its core comes behind it. -/
theorem Reaches.lowerLoad_eq_load {plan : Plan κ} (hreach : P.Reaches plan)
    (hpos : ∀ p ∈ P.pieces, 0 < p.load) {piece : Piece} {rest : List Piece}
    (hqueue : plan.queue = piece :: rest) {core : κ}
    (htarget : P.Target plan core) :
    lowerLoad (plan.placed ++ P.given) core piece.task = P.load plan core := by
  have hmem : piece ∈ plan.queue := hqueue ▸ List.mem_cons_self ..
  rw [lowerLoad_eq_coreLoad, coreLoad_append, load, add_comm]
  intro x hx hcore
  rcases List.mem_append.mp hx with hplaced | hgiven
  · obtain ⟨hle, hbody⟩ := hreach.behind x hplaced piece hmem
    refine lt_of_le_of_ne hle fun heq => ?_
    have hfull := hreach.body_full x hplaced (hbody heq)
    exact htarget.open_core.ne (hcore ▸ hfull)
  · exact hreach.lt_given hqueue (hreach.queue_pos hpos piece hmem) htarget
      hgiven hcore

/-- The core of the last piece of a task carries enough load of later tasks
to make up for the time its bodies take. -/
theorem Reaches.tail_room (hbalanced : P.Balanced) {plan : Plan κ}
    (hreach : P.Reaches plan) :
    ∀ x ∈ plan.placed, x.body = false →
      P.bound * bodyLoad plan.placed x.piece.task ≤
        lowerLoad (plan.placed ++ P.given) x.core x.piece.task := by
  induction hreach using Reaches.induct with
  | start => simp
  | step before after core hreach ih htarget hplaces =>
      have hnonneg := hreach.nonneg
      have hopen := htarget.open_core
      have hroom := fun piece rest (hqueue : before.queue = piece :: rest) =>
        hreach.bound_mul_bodyLoad_le hbalanced hqueue htarget
      have hload := fun piece rest (hqueue : before.queue = piece :: rest) =>
        hreach.lowerLoad_eq_load hbalanced.pos hqueue htarget
      have hbehind := hreach.behind
      cases hplaces with
      | @fit placed piece rest _ =>
          rw [List.forall_mem_cons]
          constructor
          · intro _
            simpa [hload piece rest rfl] using hroom piece rest rfl
          · intro x hx hwhole
            refine (le_of_eq_of_le ?_ (ih x hx hwhole)).trans ?_
            · simp
            · have hpiece := hnonneg.1 piece (List.mem_cons_self ..)
              rw [List.cons_append, lowerLoad_cons]
              split <;> linarith
      | @split placed piece rest slot _ =>
          rw [List.forall_mem_cons]
          refine ⟨by simp, fun x hx hwhole => ?_⟩
          have hne : piece.task ≠ x.piece.task := by
            intro heq
            have hbody := (hbehind x hx piece (List.mem_cons_self ..)).2 heq
            exact Bool.false_ne_true (hwhole ▸ hbody)
          refine (le_of_eq_of_le ?_ (ih x hx hwhole)).trans ?_
          · simp [hne]
          · rw [List.cons_append, lowerLoad_cons]
            split <;> simp only <;> linarith

end Problem

end PicoSched.Filling
