import Mathlib.Order.Monotone.Defs
import PicoSched.Allocation.Accounting

/-!
# Bodies dominate their core, in memory

A core that hosts a piece with `splitted_ptr` set is filled exactly, hosts no
other such piece, and gives it the highest declared priority.
-/

namespace PicoSched.Filling

variable {κ : Type*} [DecidableEq κ] {P : Problem κ}

/-- Every other piece on the core of a body is whole and belongs to a later
task. -/
theorem Problem.Reaches.body_dominates {plan : Plan κ} (hreach : P.Reaches plan)
    {x y : Placement κ} (hx : x ∈ plan.placed ++ P.given)
    (hy : y ∈ plan.placed ++ P.given) (hne : x ≠ y) (hcore : x.core = y.core)
    (hbody : x.body = true) : y.body = false ∧ x.piece.task < y.piece.task := by
  have hplaced : x ∈ plan.placed := by
    rcases List.mem_append.mp hx with hplaced | hgiven
    · exact hplaced
    · rw [P.given_whole x hgiven] at hbody
      exact absurd hbody Bool.false_ne_true
  rcases List.mem_append.mp hy with hy | hy
  · let Above : Placement κ → Placement κ → Prop := fun x y =>
      x.core = y.core → y.body = false ∧ x.piece.task < y.piece.task
    have hpairs : plan.placed.Pairwise fun x y => Above x y ∨ Above y x :=
      hreach.on_top.imp Or.inl
    have hsymmetric : Std.Symm fun x y => Above x y ∨ Above y x :=
      ⟨fun _ _ habove => habove.symm⟩
    rcases hpairs.forall hplaced hy hne with habove | habove
    · exact habove hcore
    · rw [(habove hcore.symm).1] at hbody
      exact absurd hbody Bool.false_ne_true
  · exact ⟨P.given_whole y hy, hreach.body_lt_given x hplaced hbody y hy hcore⟩

/-- The core of a body is filled exactly. -/
theorem Problem.Reaches.load_of_body {plan : Plan κ} (hreach : P.Reaches plan)
    {x : Placement κ} (hx : x ∈ plan.placed ++ P.given)
    (hbody : x.body = true) : P.load plan x.core = P.bound := by
  rcases List.mem_append.mp hx with hplaced | hgiven
  · exact hreach.body_full x hplaced hbody
  · rw [P.given_whole x hgiven] at hbody
    exact absurd hbody Bool.false_ne_true

end PicoSched.Filling

namespace PicoSched.Refinement

open Filling Loop TaskManager Main

variable {cfg : Config} {creates : ℕ → Option TaskHandle}
  {table : TaskTable cfg}

/-- The bodies among the assigned pieces are alone of their kind on their
core, fill it and come before everything else on it. -/
structure BodiesDominate (memory : Memory cfg) : Prop where
  single : ∀ entry ∈ memory.assigned, ∀ other ∈ memory.assigned,
    entry.2 = other.2 → (memory.taskList entry.1).splittedPtr ≠ none →
      (memory.taskList other.1).splittedPtr ≠ none → entry = other
  full : ∀ entry ∈ memory.assigned,
    (memory.taskList entry.1).splittedPtr ≠ none →
      (memory.coreList entry.2).utilization = cfg.utilizationBound
  highest : ∀ entry ∈ memory.assigned, ∀ other ∈ memory.assigned,
    entry.2 = other.2 → entry.1 ≠ other.1 →
      (memory.taskList entry.1).splittedPtr ≠ none →
        (memory.taskList other.1).priority < (memory.taskList entry.1).priority

section Represented

variable {P : Problem (CorePtr cfg)} {stack : TaskStack cfg}
  {memory : Memory cfg} {plan : Plan (CorePtr cfg)}

theorem Represents.bodiesDominate
    (hrep : Represents creates table P stack memory plan)
    (hreach : P.Reaches plan) (hbound : P.bound = cfg.utilizationBound)
    (hpriority : StrictAnti fun index => (table.task index).priority) :
    BodiesDominate memory := by
  constructor
  · intro entry hentry other hother hcore hbody hbody'
    obtain ⟨x, hx, hslot, hxcore⟩ := hrep.placement_of_assigned hentry
    obtain ⟨y, hy, hslot', hycore⟩ := hrep.placement_of_assigned hother
    have hxbody := (hrep.placed _ x hx hslot).2 hbody
    have hybody := (hrep.placed _ y hy hslot').2 hbody'
    have hsame : x = y := by
      by_contra hne
      have hwhole := (hreach.body_dominates hx hy hne
        (hxcore ▸ hycore ▸ hcore) hxbody).1
      exact Bool.false_ne_true (hwhole ▸ hybody)
    subst hsame
    exact Prod.ext (Fin.ext (hslot.trans hslot'.symm)) hcore
  · intro entry hentry hbody
    obtain ⟨x, hx, hslot, hxcore⟩ := hrep.placement_of_assigned hentry
    have hxbody := (hrep.placed _ x hx hslot).2 hbody
    rw [hrep.coreList, ← hbound, hxcore]
    exact hreach.load_of_body hx hxbody
  · intro entry hentry other hother hcore htask hbody
    obtain ⟨x, hx, hslot, hxcore⟩ := hrep.placement_of_assigned hentry
    obtain ⟨y, hy, hslot', hycore⟩ := hrep.placement_of_assigned hother
    obtain ⟨hxcarries, hxbody⟩ := hrep.placed _ x hx hslot
    have hycarries := (hrep.placed _ y hy hslot').1
    have hne : x ≠ y := by
      rintro rfl
      exact htask (Fin.ext (hslot.trans hslot'.symm))
    have hless := (hreach.body_dominates hx hy hne
      (hxcore ▸ hycore ▸ hcore) (hxbody hbody)).2
    obtain ⟨index, hindex, _, hxpriority, _⟩ := hxcarries.origin
    obtain ⟨index', hindex', _, hypriority, _⟩ := hycarries.origin
    rw [hxpriority, hypriority]
    apply hpriority
    rwa [Fin.lt_def, hindex, hindex']

end Represented

/-- The record fields a message leaves alone. -/
theorem BodiesDominate.log {memory : Memory cfg}
    (hmemory : BodiesDominate memory) (message : Message) :
    BodiesDominate (memory.log (.printf message)) := by
  constructor
  · simpa using hmemory.single
  · simpa using hmemory.full
  · simpa using hmemory.highest

/-- Bodies dominate their core whenever the SPA2 loop is at its head or has
been left. -/
theorem spa2_bodiesDominate (creates : ℕ → Option TaskHandle)
    (table : TaskTable cfg)
    (hpriority : StrictAnti fun index => (table.task index).priority)
    (state : State cfg)
    (hstate : Spa2Head creates table state ∨ Spa2Exit creates table state) :
    BodiesDominate state.memory := by
  rcases hstate with hhead | hexit
  · obtain ⟨plan, hplan⟩ := spa2Head_state hhead
    exact hplan.represents.bodiesDominate hplan.reaches rfl hpriority
  · obtain ⟨before, plan, hplan, hmemory⟩ := spa2Exit_state hexit
    rw [hmemory]
    exact (hplan.represents.bodiesDominate hplan.reaches rfl hpriority).log _

/-- The priorities of the repository's task list fall strictly. -/
theorem mainTable_bodiesDominate :
    ∃ state, Spa2Head some mainTable state ∧ state.memory.splits.length = 1 ∧
      BodiesDominate state.memory := by
  have hfinal : (spa2 some mainTable).final.map
      (fun state => state.memory.splits.length) = some 1 := by
    decide +kernel
  obtain ⟨state, hstate, hsplits⟩ := Option.map_eq_some_iff.mp hfinal
  have hhead := (spa2Head_of_done (Outcome.eq_done_of_final hstate)).1
  have hpriority : StrictAnti fun index => (mainTable.task index).priority := by
    decide +kernel
  exact ⟨state, hhead, hsplits,
    spa2_bodiesDominate some mainTable hpriority state (.inl hhead)⟩

end PicoSched.Refinement
