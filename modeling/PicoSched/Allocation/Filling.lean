import Mathlib.Algebra.BigOperators.Group.Finset.Piecewise
import Mathlib.Algebra.BigOperators.Group.List.Basic
import Mathlib.Algebra.Order.BigOperators.Group.Finset
import Mathlib.Algebra.Order.BigOperators.Group.List
import Mathlib.Data.Rat.Defs
import Mathlib.Logic.Relation
import Mathlib.Tactic.Linarith
import Mathlib.Tactic.Ring

/-!
# Filling cores with splittable tasks

The purpose of the normal-assign phase, without the program's memory: pieces
wait in a queue in falling task order, the next piece goes to the least loaded
ordinary core, or to the first reserve core once every ordinary core is full,
and a piece that does not fit fills the core with its body and leaves its tail
at the head of the queue.
-/

namespace PicoSched.Filling

/-- A task, or what splitting has left of one.  `slot` names the piece, `task`
the task it comes from. -/
structure Piece where
  slot : ℕ
  task : ℕ
  load : ℚ
  deriving DecidableEq

/-- A piece on its core; `body` when the piece was cut off to fill the core. -/
structure Placement (κ : Type*) where
  piece : Piece
  core : κ
  body : Bool
  deriving DecidableEq

/-- The state of the phase: the placements so far, latest first, and the
pieces that still wait. -/
structure Plan (κ : Type*) where
  placed : List (Placement κ)
  queue : List Piece

variable {κ : Type*} [DecidableEq κ]

/-- The load that `placed` puts on one core. -/
def coreLoad (placed : List (Placement κ)) (core : κ) : ℚ :=
  (placed.map fun x => if x.core = core then x.piece.load else 0).sum

/-- The load of the pieces whose task satisfies `select`. -/
def taskLoad (select : ℕ → Prop) [DecidablePred select]
    (pieces : List Piece) : ℚ :=
  (pieces.map fun p => if select p.task then p.load else 0).sum

omit [DecidableEq κ] in
@[simp]
theorem taskLoad_nil (select : ℕ → Prop) [DecidablePred select] :
    taskLoad select [] = 0 := rfl

@[simp]
theorem taskLoad_cons (select : ℕ → Prop) [DecidablePred select]
    (piece : Piece) (pieces : List Piece) :
    taskLoad select (piece :: pieces) =
      (if select piece.task then piece.load else 0) + taskLoad select pieces := by
  simp [taskLoad]

@[simp]
theorem coreLoad_nil (core : κ) : coreLoad [] core = 0 := rfl

@[simp]
theorem coreLoad_cons (x : Placement κ) (placed : List (Placement κ))
    (core : κ) :
    coreLoad (x :: placed) core =
      (if x.core = core then x.piece.load else 0) + coreLoad placed core := by
  simp [coreLoad]

theorem coreLoad_nonneg {placed : List (Placement κ)}
    (hnonneg : ∀ x ∈ placed, 0 ≤ x.piece.load) (core : κ) :
    0 ≤ coreLoad placed core := by
  apply List.sum_nonneg
  intro load hload
  obtain ⟨x, hx, rfl⟩ := List.mem_map.mp hload
  split
  · exact hnonneg x hx
  · exact le_rfl

theorem taskLoad_nonneg (select : ℕ → Prop) [DecidablePred select]
    {pieces : List Piece} (hnonneg : ∀ p ∈ pieces, 0 ≤ p.load) :
    0 ≤ taskLoad select pieces := by
  apply List.sum_nonneg
  intro load hload
  obtain ⟨p, hp, rfl⟩ := List.mem_map.mp hload
  split
  · exact hnonneg p hp
  · exact le_rfl

/-- The loads of a set of cores add up to the placements on them. -/
theorem sum_coreLoad (placed : List (Placement κ)) (cores : Finset κ) :
    ∑ core ∈ cores, coreLoad placed core =
      (placed.map fun x => if x.core ∈ cores then x.piece.load else 0).sum := by
  induction placed with
  | nil => simp
  | cons x placed ih =>
      simp only [coreLoad_cons, Finset.sum_add_distrib, ih, List.map_cons,
        List.sum_cons, Finset.sum_ite_eq]

/-- If every placement on `cores` belongs to a selected task, the load of
`cores` is part of the load of these tasks. -/
theorem sum_coreLoad_le_taskLoad (select : ℕ → Prop) [DecidablePred select]
    {placed : List (Placement κ)} {cores : Finset κ}
    (hnonneg : ∀ x ∈ placed, 0 ≤ x.piece.load)
    (hselect : ∀ x ∈ placed, x.core ∈ cores → select x.piece.task) :
    ∑ core ∈ cores, coreLoad placed core ≤
      taskLoad select (placed.map Placement.piece) := by
  rw [sum_coreLoad, taskLoad, List.map_map]
  apply List.sum_le_sum
  intro x hx
  by_cases hcore : x.core ∈ cores
  · simp [hcore, hselect x hx hcore]
  · simp only [hcore, if_false, Function.comp_apply]
    split
    · exact hnonneg x hx
    · exact le_rfl

/-- What the phase starts from.  `given` holds the tasks assigned beforehand,
one to each reserve core; `affordable` says that the tasks behind the one on
the first reserve core fit on the ordinary cores. -/
structure Problem (κ : Type*) where
  normal : Finset κ
  reserve : List κ
  given : List (Placement κ)
  pieces : List Piece
  bound : ℚ
  bound_pos : 0 < bound
  apart : ∀ core ∈ reserve, core ∉ normal
  given_reserve : ∀ x ∈ given, x.core ∈ reserve
  reserve_given : ∀ core ∈ reserve, ∃ x ∈ given, x.core = core
  given_whole : ∀ x ∈ given, x.body = false
  given_single : given.Pairwise fun x y => x.core ≠ y.core
  descending : pieces.Pairwise fun p q => q.task < p.task
  nonneg : ∀ p ∈ pieces, 0 ≤ p.load
  given_nonneg : ∀ x ∈ given, 0 ≤ x.piece.load
  given_apart : ∀ x ∈ given, ∀ p ∈ pieces, x.piece.task ≠ p.task
  affordable : ∀ x ∈ given, reserve.head? = some x.core →
    taskLoad (x.piece.task < ·) pieces ≤ normal.card * bound

namespace Problem

variable (P : Problem κ)

/-- The load of a core, the task assigned beforehand included. -/
def load (plan : Plan κ) (core : κ) : ℚ :=
  coreLoad P.given core + coreLoad plan.placed core

/-- The core the next piece goes to. -/
inductive Target (plan : Plan κ) : κ → Prop
  | normal {core : κ} (hmem : core ∈ P.normal)
      (hopen : P.load plan core < P.bound)
      (hleast : ∀ other ∈ P.normal, P.load plan core ≤ P.load plan other) :
      Target plan core
  | reserve {core : κ} (hfull : ∀ other ∈ P.normal, P.bound ≤ P.load plan other)
      (hhead : P.reserve.head? = some core)
      (hopen : P.load plan core < P.bound) : Target plan core

/-- What happens to the next piece on a given core.  A tail takes the next
free slot. -/
inductive Places (core : κ) : Plan κ → Plan κ → Prop
  | fit {placed : List (Placement κ)} {piece : Piece} {rest : List Piece}
      (hfit : P.load ⟨placed, piece :: rest⟩ core + piece.load ≤ P.bound) :
      Places core ⟨placed, piece :: rest⟩ ⟨⟨piece, core, false⟩ :: placed, rest⟩
  | split {placed : List (Placement κ)} {piece : Piece} {rest : List Piece}
      {slot : ℕ}
      (hover : P.bound < P.load ⟨placed, piece :: rest⟩ core + piece.load) :
      Places core ⟨placed, piece :: rest⟩
        ⟨⟨{ piece with
              load := P.bound - P.load ⟨placed, piece :: rest⟩ core },
            core, true⟩ :: placed,
          ⟨slot, piece.task,
            piece.load - (P.bound - P.load ⟨placed, piece :: rest⟩ core)⟩ ::
            rest⟩

def Step (before after : Plan κ) : Prop :=
  ∃ core, P.Target before core ∧ P.Places core before after

/-- The plans the phase passes through. -/
def Reaches (plan : Plan κ) : Prop :=
  Relation.ReflTransGen P.Step ⟨[], P.pieces⟩ plan

variable {P}

theorem Target.open_core {plan : Plan κ} {core : κ}
    (htarget : P.Target plan core) : P.load plan core < P.bound := by
  cases htarget <;> assumption

theorem Target.mem_or_head {plan : Plan κ} {core : κ}
    (htarget : P.Target plan core) :
    core ∈ P.normal ∨ P.reserve.head? = some core := by
  cases htarget with
  | normal hmem _ _ => exact .inl hmem
  | reserve _ hhead _ => exact .inr hhead

/-- The induction rule of the phase: what one placement preserves holds of
every plan reached. -/
@[elab_as_elim]
theorem Reaches.induct {motive : (plan : Plan κ) → P.Reaches plan → Prop}
    (start : motive ⟨[], P.pieces⟩ .refl)
    (step : ∀ (before after : Plan κ) (core : κ) (hreach : P.Reaches before)
      (_ : motive before hreach) (htarget : P.Target before core)
      (hplaces : P.Places core before after),
        motive after (hreach.tail ⟨core, htarget, hplaces⟩))
    {plan : Plan κ} (hreach : P.Reaches plan) : motive plan hreach := by
  induction hreach with
  | refl => exact start
  | tail hreach hstep ih =>
      obtain ⟨core, htarget, hplaces⟩ := hstep
      exact step _ _ core hreach ih htarget hplaces

/-! ## Order and sign of the pieces -/

theorem Reaches.descending {plan : Plan κ} (hreach : P.Reaches plan) :
    plan.queue.Pairwise fun p q => q.task < p.task := by
  induction hreach using Reaches.induct with
  | start => exact P.descending
  | step before after core _ ih _ hplaces =>
      cases hplaces with
      | fit _ => exact (List.pairwise_cons.mp ih).2
      | split _ =>
          rw [List.pairwise_cons] at ih ⊢
          exact ih

theorem Reaches.nonneg {plan : Plan κ} (hreach : P.Reaches plan) :
    (∀ p ∈ plan.queue, 0 ≤ p.load) ∧ ∀ x ∈ plan.placed, 0 ≤ x.piece.load := by
  induction hreach using Reaches.induct with
  | start => exact ⟨P.nonneg, by simp⟩
  | step before after core _ ih htarget hplaces =>
      have hopen := htarget.open_core
      obtain ⟨hqueue, hplaced⟩ := ih
      cases hplaces with
      | fit hfit =>
          rw [List.forall_mem_cons] at hqueue
          exact ⟨hqueue.2, List.forall_mem_cons.mpr ⟨hqueue.1, hplaced⟩⟩
      | split hover =>
          rw [List.forall_mem_cons] at hqueue
          refine ⟨List.forall_mem_cons.mpr ⟨?_, hqueue.2⟩,
            List.forall_mem_cons.mpr ⟨?_, hplaced⟩⟩
          · simp only
            linarith
          · simp only
            linarith

/-- A queue that starts with positive loads keeps them positive. -/
theorem Reaches.queue_pos (hpos : ∀ p ∈ P.pieces, 0 < p.load)
    {plan : Plan κ} (hreach : P.Reaches plan) :
    ∀ p ∈ plan.queue, 0 < p.load := by
  induction hreach using Reaches.induct with
  | start => exact hpos
  | step before after core _ ih _ hplaces =>
      cases hplaces with
      | fit _ => exact (List.forall_mem_cons.mp ih).2
      | split hover =>
          refine List.forall_mem_cons.mpr ⟨?_, (List.forall_mem_cons.mp ih).2⟩
          simp only
          linarith

/-- The load of every set of tasks is conserved. -/
theorem Reaches.taskLoad_eq (select : ℕ → Prop) [DecidablePred select]
    {plan : Plan κ} (hreach : P.Reaches plan) :
    taskLoad select (plan.placed.map Placement.piece) +
      taskLoad select plan.queue = taskLoad select P.pieces := by
  induction hreach using Reaches.induct with
  | start => simp
  | step before after core _ ih _ hplaces =>
      rw [← ih]
      cases hplaces with
      | fit _ =>
          simp only [List.map_cons, taskLoad_cons]
          ring
      | split _ =>
          simp only [List.map_cons, taskLoad_cons]
          split <;> ring

/-- A piece behind which another piece of the same task waits is a body, and
no placed task comes before a waiting one. -/
theorem Reaches.behind {plan : Plan κ} (hreach : P.Reaches plan) :
    ∀ x ∈ plan.placed, ∀ p ∈ plan.queue, p.task ≤ x.piece.task ∧
      (p.task = x.piece.task → x.body = true) := by
  induction hreach using Reaches.induct with
  | start => simp
  | step before after core hreach ih _ hplaces =>
      have hdescending := hreach.descending
      cases hplaces with
      | @fit placed piece rest _ =>
          rw [List.pairwise_cons] at hdescending
          rw [List.forall_mem_cons]
          refine ⟨fun p hp => ?_, fun x hx p hp =>
            ih x hx p (List.mem_cons_of_mem _ hp)⟩
          have hless := hdescending.1 p hp
          exact ⟨hless.le, fun heq => absurd heq hless.ne⟩
      | @split placed piece rest slot _ =>
          rw [List.pairwise_cons] at hdescending
          rw [List.forall_mem_cons]
          constructor
          · simp only [List.forall_mem_cons, le_refl, implies_true, and_true,
              true_and]
            exact fun p hp => (hdescending.1 p hp).le
          · intro x hx
            obtain ⟨hhead, hrest⟩ := List.forall_mem_cons.mp (ih x hx)
            exact List.forall_mem_cons.mpr ⟨hhead, hrest⟩

end Problem

end PicoSched.Filling
