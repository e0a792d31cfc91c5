import PicoSched.Allocation.Completeness

/-!
# The two variants on light task sets

When no task is heavy the pre-assign loop only copies the stack, and the two
normal-assign loops take the same steps: while a piece waits some core is open,
so the SPA2 loop never turns to the pre-assigned cores.
-/

namespace PicoSched.Refinement

open BoundedStack Filling Loop TaskManager Main PreAssign

variable {cfg : Config} {creates : ℕ → Option TaskHandle}
  {table : TaskTable cfg}

/-- No task is heavy. -/
def Light (table : TaskTable cfg) : Prop :=
  ∀ index, ((table.task index).runtime : ℚ) / (table.task index).period ≤
    getLighttask cfg.utilizationBound

namespace Light

theorem load_le (hlight : Light table) (index : ℕ) :
    load table index ≤ getLighttask cfg.utilizationBound := by
  by_cases hindex : index < cfg.numOfTask
  · rw [load_original table ⟨index, hindex⟩]
    exact hlight ⟨index, hindex⟩
  · have hbound := cfg.bound_pos
    rw [load, dif_neg hindex, getLighttask]
    positivity

theorem not_preAssigned (hlight : Light table) (index : ℕ) :
    ¬PreAssigned table index :=
  fun hpre => absurd hpre.1 (not_lt.mpr (hlight.load_le index))

theorem preCount_eq (hlight : Light table) (index : ℕ) :
    preCount table index = 0 := by
  induction index with
  | zero => rfl
  | succ index ih =>
      rw [preCount_succ_of_not index (hlight.not_preAssigned index), ih]

theorem reserve_eq (hlight : Light table) :
    (spa2Problem table).reserve = [] := by
  have hlength := given_length table cfg.numOfTask
  rw [hlight.preCount_eq, List.length_eq_zero_iff] at hlength
  change (prepare table cfg.numOfTask).given.map _ = []
  rw [hlength, List.map_nil]

theorem canFinish (hlight : Light table) : CanFinish table := by
  rw [CanFinish, hlight.preCount_eq]
  refine ⟨fun hnone => ?_, fun hsome => absurd hsome (lt_irrefl 0)⟩
  exact absurd hnone cfg.cores_pos.ne

theorem sized (hlight : Light table)
    (hruntime : ∀ index, 0 < (table.task index).runtime)
    (hperiod : ∀ index, 0 < (table.task index).period) : Sized table := by
  refine ⟨hruntime, hperiod, fun index => (hlight index).trans ?_⟩
  have hbound := cfg.bound_pos
  rw [getLighttask]
  exact div_le_self hbound.le (by linarith)

/-- The pre-assign loop passes a light task on. -/
theorem preAssignStep_eq (hlight : Light table) (index : Fin cfg.numOfTask)
    {state : State cfg} (hstate : Chosen creates table index state) :
    preAssignStep index state =
      .ok { state with uq := state.uq.push (cfg.original index) } := by
  have hheavy : (state.memory.taskList (cfg.original index)).heavy = false := by
    rw [hstate.taskList, initialInfo, if_pos (by simp)]
    exact decide_eq_false (not_lt.mpr (hlight.load_le _))
  rw [preAssignStep, original_of_counts hstate.tasks index]
  simp only [preAssignTest, hheavy, Bool.false_eq_true, if_false, pushTask,
    pushEntry_of_room (hstate.uq_room index)]

/-- The pre-assign loop copies `task_manager` to `UQ` and does nothing else. -/
theorem preAssign_eq (hlight : Light table) {ready : State cfg}
    (hready : Chosen creates table 0 ready) :
    preAssign ready = .ok { ready with uq := ready.taskManager } := by
  obtain ⟨start, hrun, _, hcopy, hcounts⟩ := forAll_spec preAssignStep
    (fun count state => Chosen creates table count state ∧
      state = { ready with uq := state.uq } ∧ Counts state.uq count) ready
    ⟨hready, rfl, hready.uq⟩
    (fun index state ⟨hstate, hcopy, hcounts⟩ => by
      have hstep := hlight.preAssignStep_eq index hstate
      obtain ⟨after, hafter, hchosen⟩ := preAssignStep_of_not index hstate
        (hlight.not_preAssigned index)
      obtain rfl := Except.ok.inj (hstep.symm.trans hafter)
      have hroom := index.isLt.trans_le cfg.numOfTask_le_maxNumTasks
      refine ⟨_, hstep, hchosen, ?_,
        (hcounts.push hroom (cfg.original index) rfl).2⟩
      conv_lhs => rw [hcopy])
  have huq : start.uq = ready.taskManager := by
    apply Stack.ext
    apply List.map_injective_iff.mpr Fin.val_injective
    rw [hready.tasks]
    exact hcounts
  rw [preAssign, hrun, hcopy, huq]

end Light

/-! ## The simulation -/

/-- A state of the SPA2 loop and the state of the `#else` loop that follows
it. -/
structure Follows (creates : ℕ → Option TaskHandle) (table : TaskTable cfg)
    (left right : State cfg) : Prop where
  stack : right.taskManager = left.uq
  memory : right.memory = left.memory
  coreManager : right.coreManager = left.coreManager
  state : ∃ plan, Spa2State creates table left plan

variable {left right after : State cfg}

theorem Follows.guard_eq (hfollows : Follows creates table left right) :
    (normalAssign creates).guard left = (elseAssign creates).guard right := by
  simp only [normalAssign, elseAssign, hfollows.stack]

/-- While a piece waits the least loaded core is open. -/
theorem Light.least_open (hlight : Light table) (hsized : Sized table)
    (htotal : totalLoad table ≤ cfg.numberOfCores * cfg.utilizationBound)
    {plan : Plan (CorePtr cfg)} (hstate : Spa2State creates table left plan)
    (hqueue : plan.queue ≠ []) {minCore : CorePtr cfg}
    (hleast : ∀ other ∈ left.coreManager.list.entries,
      (left.memory.coreList minCore).utilization ≤
        (left.memory.coreList other).utilization) :
    (left.memory.coreList minCore).utilization < cfg.utilizationBound := by
  have hfits : (spa2Problem table).total ≤
      Fintype.card (CorePtr cfg) * (spa2Problem table).bound := by
    rw [spa2_total, Fintype.card_fin]
    exact htotal
  obtain ⟨core, hopen⟩ :=
    hstate.reaches.exists_open hsized.pieces_pos hqueue hfits
  have hmem : core ∈ (spa2Problem table).normal := by
    refine (mem_normal_or_reserve table core).resolve_right ?_
    rw [hlight.reserve_eq]
    exact List.not_mem_nil
  calc
    (left.memory.coreList minCore).utilization ≤
        (left.memory.coreList core).utilization :=
      hleast core ((hstate.mem_normal core).mp hmem)
    _ = (spa2Problem table).load plan core := hstate.utilization core
    _ < cfg.utilizationBound := hopen

/-- An iteration of the SPA2 loop is an iteration of the `#else` loop. -/
theorem Follows.next (hfollows : Follows creates table left right)
    (hlight : Light table) (hsized : Sized table)
    (htotal : totalLoad table ≤ cfg.numberOfCores * cfg.utilizationBound)
    (hguard : (normalAssign creates).guard left = true)
    (hbody : normalAssignBody creates left = .ok (.next after)) :
    ∃ after', elseAssignBody creates right = .ok (.next after') ∧
      Follows creates table after after' := by
  obtain ⟨hstack, hmemory, hcoreManager, plan, hstate⟩ := hfollows
  have hne : plan.queue ≠ [] := by
    simpa [normalAssign, hstate.represents.guard_eq] using hguard
  obtain ⟨task, rest, piece, pieces, hentries, hqueue, htask, _⟩ :=
    hstate.represents.top hne
  have hcores : left.coreManager.list.entries ≠ [] := by
    intro hnone
    rw [normalAssignBody, getMinCore_of_nil hnone] at hbody
    cases hbody
  obtain ⟨minCore, hmin, _, hleast⟩ :=
    getMinCore_of_ne_nil hcores left.memory.coreList
  have hopen := hlight.least_open hsized htotal hstate hne hleast
  have hpop : popTask left.uq left.memory =
      (some task, left.uq.pop.2, left.memory) := popEntry_of_cons hentries
  have hselect : selectCore minCore left.preAssignedCore left.memory =
      .ok (some minCore, left.preAssignedCore, left.memory) := by
    rw [selectCore, if_neg (not_le.mpr hopen)]
  rcases assignOrSplit_cases hstate.represents rfl hstate.coreBound hentries
    hqueue htask minCore with ⟨_, _, hrun⟩ | ⟨uq, memory, plan', hplaces, hrun⟩
  · simp only [normalAssignBody, hmin, hpop, hselect, hrun] at hbody
    cases hbody
  · have hordinary : (memory.coreList minCore).preAssigned = false := by
      rw [(hplaces.represents hstate.represents).coreList, hlight.reserve_eq]
      rfl
    have hleft : normalAssignBody creates left =
        .ok (.next { left with memory, uq }) := by
      simp only [normalAssignBody, hmin, hpop, hselect, hrun, hordinary,
        Bool.false_eq_true, if_false]
    have hright : elseAssignBody creates right =
        .ok (.next { right with memory, taskManager := uq }) := by
      simp only [elseAssignBody, hstack, hmemory, hcoreManager, hmin, hpop,
        if_neg (not_le.mpr hopen), hrun]
    obtain ⟨_, plan'', _, _, hafter⟩ := hstate.next hguard hleft
    rw [hleft] at hbody
    cases hbody
    exact ⟨_, hright, rfl, rfl, hcoreManager, plan'', hafter⟩

/-- On light task sets the two variants end with the same memory and the same
calls, and neither finds all processors fully utilized. -/
theorem variants_agree (creates : ℕ → Option TaskHandle)
    (table : TaskTable cfg)
    (hruntime : ∀ index, 0 < (table.task index).runtime)
    (hperiod : ∀ index, 0 < (table.task index).period)
    (hlight : Light table)
    (htotal : totalLoad table ≤ cfg.numberOfCores * cfg.utilizationBound) :
    ∃ first second, spa2 creates table = .done first ∧
      elseBranch creates table = .done second ∧
      first.memory = second.memory ∧
      .allProcessorsFullyUtilized ∉ first.memory.printed := by
  have hsized := hlight.sized hruntime hperiod
  obtain ⟨first, hfirst⟩ :=
    hlight.canFinish.spa2_done hsized htotal creates
  obtain ⟨ready, start, hsetup, hpre, hstart, hspa2⟩ :=
    spa2_eq_run creates table
  obtain ⟨ready', hsetup', hready, helse⟩ := elseBranch_eq_run creates table
  obtain rfl := Except.ok.inj (hsetup.symm.trans hsetup')
  have hcopy := hlight.preAssign_eq hready
  rw [hpre] at hcopy
  obtain rfl := Except.ok.inj hcopy
  rw [hspa2] at hfirst
  have hfollows : Follows creates table
      { ready with uq := ready.taskManager } ready :=
    ⟨rfl, rfl, rfl, _, spa2State_start hstart⟩
  obtain ⟨second, hsecond, hlast⟩ := While.run_done_of_related
    (elseAssign creates) (Follows creates table)
    (fun _ _ hfollows => hfollows.guard_eq)
    (fun _ _ _ hfollows hguard hbody =>
      hfollows.next hlight hsized htotal hguard hbody)
    hfollows hfirst
  refine ⟨first, second, hspa2.trans hfirst, helse.trans hsecond,
    hlast.memory.symm, fun hprinted => ?_⟩
  obtain ⟨plan, hfinal⟩ := hlast.state
  obtain ⟨number, hmessage⟩ := hfinal.represents.printed _ hprinted
  cases hmessage

/-- Three equal light tasks on two cores.  They are popped in reverse, so `TASK 0`
is the one that is split. -/
def lightTable : TaskTable crowdedConfig :=
  TaskTable.ofRows crowdedConfig ![.mk 2 5 3, .mk 2 5 2, .mk 2 5 1]

theorem lightTable_variants_agree : ∃ first second,
    spa2 some lightTable = .done first ∧
      elseBranch some lightTable = .done second ∧
      first.memory = second.memory ∧
      .allProcessorsFullyUtilized ∉ first.memory.printed :=
  variants_agree some lightTable (by decide +kernel) (by decide +kernel)
    (by unfold Light; decide +kernel) (by decide +kernel)

end PicoSched.Refinement
