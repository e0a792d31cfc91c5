import PicoSched.Allocation.Variants

/-!
# The loads of the cores

No core is filled past the bound but by a task that got it beforehand, and the
least loaded core is chosen so that the ordinary cores stay within one task of
each other.
-/

namespace PicoSched.Filling.Problem

variable {κ : Type*} [DecidableEq κ] {P : Problem κ} {plan : Plan κ}

/-- Cutting a piece does not make it larger. -/
theorem Reaches.queue_le (hreach : P.Reaches plan) {largest : ℚ}
    (hlargest : ∀ p ∈ P.pieces, p.load ≤ largest) :
    ∀ p ∈ plan.queue, p.load ≤ largest := by
  induction hreach using Reaches.induct with
  | start => exact hlargest
  | step before after core _ ih htarget hplaces =>
      have hopen := htarget.open_core
      cases hplaces with
      | fit _ => exact (List.forall_mem_cons.mp ih).2
      | split _ =>
          rw [List.forall_mem_cons] at ih ⊢
          refine ⟨?_, ih.2⟩
          simp only
          linarith [ih.1]

/-- What the next piece adds to its core. -/
theorem Places.load_core_le_add {before after : Plan κ} {core : κ}
    (hplaces : P.Places core before after) {largest : ℚ}
    (hlargest : ∀ p ∈ before.queue, p.load ≤ largest) :
    P.load after core ≤ P.load before core + largest := by
  cases hplaces with
  | @fit placed piece rest _ =>
      have hpiece := hlargest piece (List.mem_cons_self ..)
      simp only [load, coreLoad_cons, if_true]
      linarith
  | @split placed piece rest slot hover =>
      have hpiece := hlargest piece (List.mem_cons_self ..)
      simp only [load, coreLoad_cons, if_true] at hover ⊢
      linarith

/-- The ordinary cores stay within the largest piece of each other. -/
theorem Reaches.load_le_add (hreach : P.Reaches plan) {largest : ℚ}
    (hnonneg : 0 ≤ largest) (hlargest : ∀ p ∈ P.pieces, p.load ≤ largest) :
    ∀ first ∈ P.normal, ∀ second ∈ P.normal,
      P.load plan first ≤ P.load plan second + largest := by
  induction hreach using Reaches.induct with
  | start =>
      intro first hfirst second hsecond
      rw [load_of_mem_normal _ hfirst, load_of_mem_normal _ hsecond]
      simpa using hnonneg
  | step before after core hreach ih htarget hplaces =>
      have hgrows := hplaces.load_core_le_add (hreach.queue_le hlargest)
      have hmono := hplaces.load_le htarget hreach.nonneg.1
      intro first hfirst second hsecond
      by_cases hcore : first = core
      · subst hcore
        cases htarget with
        | normal _ _ hleast => linarith [hleast second hsecond, hmono second]
        | reserve _ hhead _ =>
            exact absurd hfirst (P.apart first (List.mem_of_mem_head? hhead))
      · rw [hplaces.load_of_ne hcore]
        linarith [ih first hfirst second hsecond, hmono second]

end PicoSched.Filling.Problem

namespace PicoSched.Refinement

open Filling Loop TaskManager Main PreAssign

variable {cfg : Config} {creates : ℕ → Option TaskHandle}
  {table : TaskTable cfg} {P : Problem (CorePtr cfg)} {stack : TaskStack cfg}
  {memory : Memory cfg} {plan : Plan (CorePtr cfg)} {state : State cfg}

/-! ## The bound -/

/-- The core carries at most the bound, or nothing but one pre-assigned task
that is larger than the bound by itself. -/
def WithinBound (table : TaskTable cfg) (memory : Memory cfg)
    (core : CorePtr cfg) : Prop :=
  (memory.coreList core).utilization ≤ cfg.utilizationBound ∨
    ∃ task : TaskPtr cfg, PreAssigned table task ∧
      (memory.coreList core).preAssigned = true ∧
      cfg.utilizationBound < (memory.taskList task).utilization ∧
      memory.assigned.filter (fun entry => entry.2 = core) = [(task, core)]

/-- The calls of `Assign_task` for a core are the placements on it. -/
theorem Represents.assigned_filter
    (hrep : Represents creates table P stack memory plan) (core : CorePtr cfg) :
    (memory.assigned.filter fun entry => entry.2 = core).map
        (Prod.map Fin.val id) =
      ((plan.placed ++ P.given).filter fun x => x.core = core).map
        fun x => (x.piece.slot, x.core) := by
  have hassigned := congrArg
    (List.filter fun entry : ℕ × CorePtr cfg => entry.2 = core) hrep.assigned
  rw [List.filter_map, List.filter_map] at hassigned
  exact hassigned

theorem given_filter {x : Placement (CorePtr cfg)} (hx : x ∈ P.given) :
    P.given.filter (fun y => y.core = x.core) = [x] := by
  have hsingle := P.given_single
  generalize P.given = given at hx hsingle
  induction given with
  | nil => cases hx
  | cons y given ih =>
      rw [List.pairwise_cons] at hsingle
      rcases List.mem_cons.mp hx with rfl | htail
      · have hnone : given.filter (fun y => y.core = x.core) = [] := by
          apply List.filter_eq_nil_iff.mpr
          intro z hz
          rw [decide_eq_true_iff]
          exact (hsingle.1 z hz).symm
        rw [List.filter_cons, hnone, if_pos (decide_eq_true rfl)]
      · rw [List.filter_cons_of_neg]
        · exact ih htail hsingle.2
        · rw [decide_eq_true_iff]
          exact hsingle.1 x htail

theorem Represents.withinBound
    (hrep : Represents creates table (spa2Problem table) stack memory plan)
    (hreach : (spa2Problem table).Reaches plan) (core : CorePtr cfg) :
    WithinBound table memory core := by
  rw [WithinBound, hrep.coreList]
  rcases hreach.load_le_or_given core with hle | ⟨x, hx, rfl, hover, hnone⟩
  · exact .inl hle
  · right
    obtain ⟨_, hpiece, _, hpre⟩ := mem_given x hx
    have hmem : x ∈ plan.placed ++ (spa2Problem table).given :=
      List.mem_append_right _ hx
    have hslot : x.piece.slot < cfg.maxNumTasks :=
      (hrep.slot_lt.2 x hmem).trans_le hrep.currIdx_le
    have htask : x.piece.slot = x.piece.task := by
      rw [hpiece]
      rfl
    have hcarries := (hrep.placed ⟨x.piece.slot, hslot⟩ x hmem rfl).1
    refine ⟨⟨x.piece.slot, hslot⟩, ?_, ?_, ?_, ?_⟩
    · rw [Fin.val_mk, htask]
      exact hpre
    · exact decide_eq_true ((spa2Problem table).given_reserve x hx)
    · rw [hcarries.utilization]
      exact hover
    · have hplaced : plan.placed.filter (fun y => y.core = x.core) = [] := by
        apply List.filter_eq_nil_iff.mpr
        intro y hy
        rw [decide_eq_true_iff]
        exact hnone y hy
      have hassigned := hrep.assigned_filter x.core
      rw [List.filter_append, hplaced, given_filter hx] at hassigned
      apply List.map_injective_iff.mpr
        (Fin.val_injective.prodMap Function.injective_id)
      exact hassigned

/-- At every head of the SPA2 loop and at its exit, no core is filled past the
bound but by a pre-assigned task, to which nothing is added. -/
theorem spa2_withinBound (creates : ℕ → Option TaskHandle)
    (table : TaskTable cfg) (state : State cfg)
    (hstate : Spa2Head creates table state ∨ Spa2Exit creates table state)
    (core : CorePtr cfg) : WithinBound table state.memory core := by
  rcases hstate with hhead | hexit
  · obtain ⟨plan, hplan⟩ := spa2Head_state hhead
    exact hplan.represents.withinBound hplan.reaches core
  · obtain ⟨before, plan, hplan, hmemory⟩ := spa2Exit_state hexit
    rw [hmemory]
    exact hplan.represents.withinBound hplan.reaches core

/-- The first task is larger than the bound and gets a core of its own. -/
def fullTable : TaskTable crowdedConfig :=
  TaskTable.ofRows crowdedConfig ![.mk 9 10 3, .mk 1 5 2, .mk 1 10 1]

theorem fullTable_withinBound :
    ∃ state, Spa2Head some fullTable state ∧
      (∃ core, crowdedConfig.utilizationBound <
        (state.memory.coreList core).utilization) ∧
      ∀ core, WithinBound fullTable state.memory core := by
  have hfinal : (spa2 some fullTable).final.map (fun state =>
      decide (∃ core, crowdedConfig.utilizationBound <
        (state.memory.coreList core).utilization)) = some true := by
    decide +kernel
  obtain ⟨state, hrun, hover⟩ := Option.map_eq_some_iff.mp hfinal
  have hhead := (spa2Head_of_done (Outcome.eq_done_of_final hrun)).1
  exact ⟨state, hhead, of_decide_eq_true hover,
    spa2_withinBound some fullTable state (.inl hhead)⟩

/-! ## Balance -/

/-- The largest utilization of a task of the list. -/
def largestLoad (table : TaskTable cfg) : ℚ :=
  Finset.univ.sup' ⟨⟨0, cfg.tasks_pos⟩, Finset.mem_univ _⟩
    fun index : Fin cfg.numOfTask =>
      ((table.task index).runtime : ℚ) / (table.task index).period

theorem load_le_largestLoad {index : ℕ} (hindex : index < cfg.numOfTask) :
    load table index ≤ largestLoad table := by
  have hload := load_original table ⟨index, hindex⟩
  rw [Fin.val_mk] at hload
  rw [hload]
  exact Finset.le_sup' (fun index : Fin cfg.numOfTask =>
    ((table.task index).runtime : ℚ) / (table.task index).period)
    (Finset.mem_univ _)

theorem largestLoad_nonneg (table : TaskTable cfg) : 0 ≤ largestLoad table :=
  (load_nonneg 0).trans (load_le_largestLoad cfg.tasks_pos)

/-- The cores of the stack are within the largest task of each other, and the
scan of the stack finds the least loaded one. -/
structure CoresBalanced (table : TaskTable cfg) (state : State cfg) : Prop where
  close : ∀ first ∈ state.coreManager.list.entries,
    ∀ second ∈ state.coreManager.list.entries,
      |(state.memory.coreList first).utilization -
        (state.memory.coreList second).utilization| ≤ largestLoad table
  least : ∀ core, getMinCore state.coreManager state.memory.coreList = .ok core →
    core ∈ state.coreManager.list.entries ∧
      ∀ other ∈ state.coreManager.list.entries,
        (state.memory.coreList core).utilization ≤
          (state.memory.coreList other).utilization

theorem getMinCore_least {stack : CoreStack cfg}
    {coreList : CorePtr cfg → CoreInfo} {core : CorePtr cfg}
    (hmin : getMinCore stack coreList = .ok core) :
    core ∈ stack.list.entries ∧ ∀ other ∈ stack.list.entries,
      (coreList core).utilization ≤ (coreList other).utilization := by
  have hne : stack.list.entries ≠ [] := by
    intro hnone
    rw [getMinCore_of_nil hnone] at hmin
    cases hmin
  obtain ⟨least, hleast, hspec⟩ := getMinCore_of_ne_nil hne coreList
  rw [hmin] at hleast
  cases hleast
  exact hspec

theorem Represents.coresBalanced
    (hrep : Represents creates table P stack state.memory plan)
    (hreach : P.Reaches plan)
    (hcores : ∀ core ∈ state.coreManager.list.entries, core ∈ P.normal)
    (hpieces : ∀ p ∈ P.pieces, p.load ≤ largestLoad table) :
    CoresBalanced table state where
  close first hfirst second hsecond := by
    have hclose := hreach.load_le_add (largestLoad_nonneg table) hpieces
    have hforth := hclose first (hcores first hfirst) second (hcores second hsecond)
    have hback := hclose second (hcores second hsecond) first (hcores first hfirst)
    rw [hrep.coreList, hrep.coreList, abs_sub_le_iff]
    constructor <;> linarith
  least core hmin := getMinCore_least hmin

/-- At every head of the loop of either branch the cores that are scanned are
within the largest task of each other, and the scan is right. -/
theorem heads_coresBalanced (creates : ℕ → Option TaskHandle)
    (table : TaskTable cfg) (state : State cfg)
    (hstate : Spa2Head creates table state ∨ ElseHead creates table state) :
    CoresBalanced table state := by
  rcases hstate with hhead | hhead
  · obtain ⟨plan, hplan⟩ := spa2Head_state hhead
    apply hplan.represents.coresBalanced hplan.reaches
    · exact fun core hcore => (hplan.mem_normal core).mpr hcore
    · intro p hp
      obtain ⟨hpiece, hless, _⟩ := mem_waiting p hp
      rw [hpiece]
      exact load_le_largestLoad hless
  · obtain ⟨plan, hplan⟩ := elseState_of_head hhead
    apply hplan.represents.coresBalanced hplan.reaches
    · exact fun core _ => Finset.mem_univ core
    · intro p hp
      obtain ⟨index, hindex, rfl⟩ := List.mem_map.mp hp
      rw [List.mem_reverse, List.mem_range] at hindex
      exact load_le_largestLoad hindex

/-- Both branches end with two ordinary cores of different loads and one split
task. -/
theorem lightTable_coresBalanced :
    (∃ state, Spa2Head some lightTable state ∧
      state.coreManager.list.entries.length = 2 ∧
      state.memory.splits.length = 1 ∧ CoresBalanced lightTable state) ∧
    ∃ state, ElseHead some lightTable state ∧
      state.coreManager.list.entries.length = 2 ∧
      state.memory.splits.length = 1 ∧ CoresBalanced lightTable state := by
  have hspa2 : (spa2 some lightTable).final.map (fun state =>
      decide (state.coreManager.list.entries.length = 2 ∧
        state.memory.splits.length = 1)) = some true := by decide +kernel
  have helse : (elseBranch some lightTable).final.map (fun state =>
      decide (state.coreManager.list.entries.length = 2 ∧
        state.memory.splits.length = 1)) = some true := by decide +kernel
  constructor
  · obtain ⟨state, hrun, hvalues⟩ := Option.map_eq_some_iff.mp hspa2
    obtain ⟨hcores, hsplits⟩ := of_decide_eq_true hvalues
    have hhead := (spa2Head_of_done (Outcome.eq_done_of_final hrun)).1
    exact ⟨state, hhead, hcores, hsplits,
      heads_coresBalanced some lightTable state (.inl hhead)⟩
  · obtain ⟨state, hrun, hvalues⟩ := Option.map_eq_some_iff.mp helse
    obtain ⟨hcores, hsplits⟩ := of_decide_eq_true hvalues
    have hhead := elseHead_of_done (Outcome.eq_done_of_final hrun)
    exact ⟨state, hhead, hcores, hsplits,
      heads_coresBalanced some lightTable state (.inr hhead)⟩

end PicoSched.Refinement
