import PicoSched.Allocation.PreAssign
import PicoSched.Model.Effects

/-!
# The start of the normal-assign loops

The initialisation and the pre-assign loop cannot fail, and leave the stacks
and records that the choice computed from the table says.
-/

namespace PicoSched.PreAssign

open BoundedStack Filling Loop TaskManager Main

variable {cfg : Config} (creates : ℕ → Option TaskHandle) (table : TaskTable cfg)

/-- The record of a slot when the first `count` tasks have been created. -/
def initialInfo (count : ℕ) (task : TaskPtr cfg) : TaskInfo :=
  if task.val < count then
    { table.entry task with
      utilization := load table task
      heavy := decide (getLighttask cfg.utilizationBound < load table task)
      myPtr := creates task }
  else table.entry task

variable {creates table}

/-! ## Stacks of indices -/

/-- A stack holds the indices below `count` in order. -/
def Counts {capacity bound : ℕ} (stack : Stack (Fin bound) capacity)
    (count : ℕ) : Prop :=
  stack.entries.map Fin.val = (List.range count).reverse

theorem Counts.cell {capacity bound : ℕ} {stack : Stack (Fin bound) capacity}
    {count : ℕ} (hcounts : Counts stack count) {index : ℕ}
    (hindex : index < count) :
    ∃ entry, stack.cell index = some entry ∧ entry.val = index := by
  have hlookup : (stack.entries.reverse.map Fin.val)[index]? = some index := by
    rw [List.map_reverse, hcounts, List.reverse_reverse,
      List.getElem?_range hindex]
  rw [List.getElem?_map] at hlookup
  exact Option.map_eq_some_iff.mp hlookup

theorem Counts.push {capacity bound : ℕ} {stack : Stack (Fin bound) capacity}
    {count : ℕ} (hcounts : Counts stack count) (hroom : count < capacity)
    (entry : Fin bound) (hentry : entry.val = count) :
    stack.entries.length < capacity ∧ Counts (stack.push entry) (count + 1) := by
  have hlength := congrArg List.length hcounts
  rw [List.length_map, List.length_reverse, List.length_range] at hlength
  have hstack : stack.entries.length < capacity := hlength ▸ hroom
  refine ⟨hstack, ?_⟩
  rw [Counts, Stack.entries_push _ hstack, List.map_cons, hcounts, hentry,
    List.range_succ, List.reverse_append]
  rfl

/-! ## Initialisation -/

theorem initCore_spec (stack : CoreStack cfg) (memory : Memory cfg) :
    ∃ after, initCore stack memory = .ok (after, memory) ∧
      after.list.entries = (List.finRange cfg.numberOfCores).reverse := by
  obtain ⟨⟨after, memory'⟩, hrun, hmemory, hcounts⟩ := forAll_spec
    initCoreStep
    (fun count state => state.2 = memory ∧ Counts state.1.list count)
    (initCoreStack stack, memory) ⟨rfl, rfl⟩
    (fun core state hstate => by
      obtain ⟨hroom, hpush⟩ := hstate.2.push core.isLt core rfl
      refine ⟨_, rfl, ?_⟩
      rw [pushCore, pushEntry_of_room hroom]
      exact ⟨hstate.1, hpush⟩)
  refine ⟨after, ?_, ?_⟩
  · rw [initCore, hrun, ← hmemory]
  · apply List.map_injective_iff.mpr Fin.val_injective
    rw [hcounts, List.map_reverse, List.map_coe_finRange_eq_range]

/-- What `init_task` has done after `count` tasks. -/
structure Created (creates : ℕ → Option TaskHandle) (table : TaskTable cfg)
    (before : Memory cfg) (count : ℕ) (stack : TaskStack cfg)
    (memory : Memory cfg) : Prop where
  counts : Counts stack count
  taskList : memory.taskList = initialInfo creates table count
  coreList : memory.coreList = before.coreList
  currIdx : memory.currIdx = before.currIdx
  created : memory.created = count
  assigned : memory.assigned = before.assigned
  splits : memory.splits = before.splits
  printed : memory.printed = before.printed

theorem load_original (table : TaskTable cfg) (index : Fin cfg.numOfTask) :
    load table index = ((table.task index).runtime : ℚ) /
      (table.task index).period := by
  rw [load, dif_pos index.isLt]

/-- The memory after `init_task` has treated a task. -/
def initTaskMemory (creates : ℕ → Option TaskHandle) (task : TaskPtr cfg)
    (memory : Memory cfg) : Memory cfg :=
  let info := memory.taskList task
  let utilization : ℚ := info.runtime / info.period
  xTaskCreate creates task (memory.setTask task { info with
    utilization
    heavy :=
      if getLighttask cfg.utilizationBound < utilization then true
      else info.heavy })

theorem initTaskStep_eq (creates : ℕ → Option TaskHandle)
    (index : Fin cfg.numOfTask) {stack : TaskStack cfg} {memory : Memory cfg}
    (hcounts : Counts stack index) :
    initTaskStep creates index (stack, memory) =
        .ok (stack.push (cfg.original index),
          initTaskMemory creates (cfg.original index) memory) ∧
      Counts (stack.push (cfg.original index)) (index + 1) := by
  have hindex : index.val < cfg.maxNumTasks :=
    index.isLt.trans_le cfg.numOfTask_le_maxNumTasks
  obtain ⟨hroom, hpush⟩ := hcounts.push hindex (cfg.original index) rfl
  obtain ⟨task, hcell, htask⟩ := hpush.cell (Nat.lt_succ_self index)
  obtain rfl : task = cfg.original index := Fin.ext htask
  refine ⟨?_, hpush⟩
  rw [initTaskStep]
  simp only [pushTask, pushEntry_of_room hroom, hcell]
  rfl

theorem initTaskStep_spec {before : Memory cfg} (index : Fin cfg.numOfTask)
    {stack : TaskStack cfg} {memory : Memory cfg}
    (hstate : Created creates table before index stack memory) :
    ∃ stack' memory',
      initTaskStep creates index (stack, memory) = .ok (stack', memory') ∧
        Created creates table before (index + 1) stack' memory' := by
  obtain ⟨hstep, hpush⟩ := initTaskStep_eq creates index hstate.counts
  have hentry : memory.taskList (cfg.original index) =
      table.entry (cfg.original index) := by
    rw [hstate.taskList, initialInfo, if_neg (by simp)]
  refine ⟨_, _, hstep, ?_⟩
  constructor
  · exact hpush
  · funext slot
    simp only [initTaskMemory, taskList_xTaskCreate, Memory.taskList_setTask]
    rw [Function.update_idem, Function.update_self]
    by_cases hslot : slot = cfg.original index
    · subst hslot
      have hcreated : (cfg.original index).val < index.val + 1 :=
        Nat.lt_succ_self _
      rw [Function.update_self, initialInfo, if_pos hcreated, hentry]
      simp [load_original, TaskTable.task, table.heavy_eq, table.myPtr_eq,
        hstate.created]
    · have hval : slot.val ≠ index.val := fun heq => hslot (Fin.ext heq)
      rw [Function.update_of_ne hslot, hstate.taskList, initialInfo,
        initialInfo]
      congr 1
      exact propext (by omega)
  · exact hstate.coreList
  · exact hstate.currIdx
  · rw [initTaskMemory, created_xTaskCreate, Memory.created_setTask,
      hstate.created]
  · exact hstate.assigned
  · exact hstate.splits
  · exact hstate.printed

theorem initTask_spec (creates : ℕ → Option TaskHandle)
    (before : Memory cfg) (htaskList :
    before.taskList = table.entry) (hcreated : before.created = 0) :
    ∃ stack memory, initTask creates before = .ok (stack, memory) ∧
      Created creates table before cfg.numOfTask stack memory := by
  obtain ⟨⟨stack, memory⟩, hrun, hstate⟩ := forAll_spec
    (initTaskStep creates)
    (fun count state => Created creates table before count state.1 state.2)
    (Stack.empty, before)
    ⟨rfl, by funext slot; simp [htaskList, initialInfo], rfl, rfl, hcreated,
      rfl, rfl, rfl⟩
    (fun index state hstate => by
      obtain ⟨stack', memory', hstep, hafter⟩ := initTaskStep_spec index hstate
      exact ⟨_, hstep, hafter⟩)
  exact ⟨stack, memory, hrun, hstate⟩

/-! ## The pre-assign loop -/

/-- The state of `main` after `count` iterations of the pre-assign loop. -/
structure Chosen (creates : ℕ → Option TaskHandle) (table : TaskTable cfg)
    (count : ℕ) (state : State cfg) : Prop where
  tasks : Counts state.taskManager cfg.numOfTask
  uq : state.uq.entries.map Fin.val =
    (prepare table count).waiting.map Piece.slot
  free : state.coreManager.list.entries = (prepare table count).free
  coreBound : state.coreManager.utilizationBound = cfg.utilizationBound
  reserve : state.preAssignedCore.list.entries =
    (prepare table count).given.map Placement.core
  taskList : state.memory.taskList = initialInfo creates table cfg.numOfTask
  coreList : ∀ core, state.memory.coreList core =
    ⟨1 <<< core.val, coreLoad (prepare table count).given core,
      decide (core ∈ (prepare table count).given.map Placement.core)⟩
  currIdx : state.memory.currIdx = cfg.numOfTask
  created : state.memory.created = cfg.numOfTask
  assigned : state.memory.assigned.map (Prod.map Fin.val id) =
    (prepare table count).given.map fun x => (x.piece.slot, x.core)
  splits : state.memory.splits = []
  printed : ∀ message ∈ state.memory.printed,
    ∃ number, message = .heavyButAffordable number

theorem setup_spec (creates : ℕ → Option TaskHandle) (table : TaskTable cfg) :
    ∃ ready, setup creates table = .ok ready ∧
      Chosen creates table 0 ready := by
  obtain ⟨coreManager, hcore, hfree⟩ :=
    initCore_spec (⟨Stack.empty, 0⟩ : CoreStack cfg) (initialMemory table)
  obtain ⟨stack, memory, htask, hcreated⟩ :=
    initTask_spec creates (initialMemory table) rfl rfl
  refine ⟨_, by simp only [setup, hcore, htask]; rfl, ?_⟩
  constructor
  · exact hcreated.counts
  · rfl
  · exact hfree
  · rfl
  · rfl
  · exact hcreated.taskList
  · intro core
    rw [hcreated.coreList]
    simp [initialMemory, initialCoreList, prepare]
  · exact hcreated.currIdx
  · exact hcreated.created
  · rw [hcreated.assigned]
    rfl
  · exact hcreated.splits
  · rw [hcreated.printed]
    simp [initialMemory, Memory.printed]

theorem chosen_of_setup {ready : State cfg}
    (hsetup : setup creates table = .ok ready) : Chosen creates table 0 ready := by
  obtain ⟨ready', hsetup', hready⟩ := setup_spec creates table
  rw [hsetup] at hsetup'
  cases hsetup'
  exact hready

theorem initialInfo_utilization {task : TaskPtr cfg}
    (htask : task.val < cfg.numOfTask) :
    (initialInfo creates table cfg.numOfTask task).utilization =
      load table task := by
  rw [initialInfo, if_pos htask]

theorem lowerSum_spec {stack : TaskStack cfg} {memory : Memory cfg}
    (hcounts : Counts stack cfg.numOfTask)
    (htaskList : memory.taskList = initialInfo creates table cfg.numOfTask)
    (indices : List ℕ) (hindices : ∀ index ∈ indices, index < cfg.numOfTask)
    (sum : ℚ) :
    lowerSum stack memory indices sum =
      .ok (sum + (indices.map (load table)).sum) := by
  induction indices generalizing sum with
  | nil => simp [lowerSum]
  | cons index indices ih =>
      rw [List.forall_mem_cons] at hindices
      obtain ⟨task, hcell, rfl⟩ := hcounts.cell hindices.1
      simp only [lowerSum, hcell]
      rw [ih hindices.2, htaskList, initialInfo_utilization hindices.1,
        List.map_cons, List.sum_cons, add_assoc]

/-- `simple_test` compares the load of the later tasks with what the cores
below the top of the stack can take. -/
theorem simpleTest_spec {state : State cfg} {index : ℕ}
    (hstate : Chosen creates table index state) :
    simpleTest index state.coreManager state.taskManager state.memory =
      if laterLoad table index ≤
          ((cfg.numberOfCores : ℚ) - preCount table index - 1) *
            cfg.utilizationBound then .ok (true, state.memory)
      else .ok (false,
        state.memory.log (.printf (.heavyButAffordable (index + 1)))) := by
  have hsum := lowerSum_spec hstate.tasks hstate.taskList
    (List.range' (index + 1) (cfg.numOfTask - (index + 1)))
    (fun later hlater => by
      rw [List.mem_range'_1] at hlater
      omega) 0
  have hlater : ((List.range' (index + 1)
      (cfg.numOfTask - (index + 1))).map (load table)).sum =
        laterLoad table index := rfl
  rw [hlater, zero_add] at hsum
  have hfree := free_length table index
  have htop : (state.coreManager.list.top : ℚ) =
      (cfg.numberOfCores : ℚ) - preCount table index - 1 := by
    rw [Stack.top, hstate.free, ← hfree]
    push_cast
    ring
  simp only [simpleTest, hsum, htop, hstate.coreBound]
  by_cases hfits : laterLoad table index ≤
      ((cfg.numberOfCores : ℚ) - preCount table index - 1) *
        cfg.utilizationBound
  · rw [if_neg (not_lt.mpr hfits), if_pos hfits]
  · rw [if_pos (lt_of_not_ge hfits), if_neg hfits]

theorem preAssignTest_spec {state : State cfg} (index : Fin cfg.numOfTask)
    (hstate : Chosen creates table index state) :
    ∃ memory, preAssignTest index (cfg.original index) state =
        .ok (decide (PreAssigned table index), memory) ∧
      (memory = state.memory ∨ memory =
        state.memory.log (.printf (.heavyButAffordable (index + 1)))) := by
  have hheavy : (state.memory.taskList (cfg.original index)).heavy =
      decide (getLighttask cfg.utilizationBound < load table index) := by
    rw [hstate.taskList, initialInfo, if_pos (by simp)]
    rfl
  have htest := simpleTest_spec hstate
  rw [preAssignTest, hheavy]
  by_cases hload : getLighttask cfg.utilizationBound < load table index
  · rw [if_pos (by simpa using hload), htest]
    by_cases hfits : laterLoad table index ≤
        ((cfg.numberOfCores : ℚ) - preCount table index - 1) *
          cfg.utilizationBound
    · have hpre : PreAssigned table index := ⟨hload, hfits⟩
      rw [if_pos hfits]
      exact ⟨state.memory, by simp [hpre], .inl rfl⟩
    · have hpre : ¬PreAssigned table index := fun hpre => hfits hpre.2
      rw [if_neg hfits]
      exact ⟨_, by simp [hpre], .inr rfl⟩
  · have hpre : ¬PreAssigned table index := fun hpre => hload hpre.1
    rw [if_neg (by simpa using hload)]
    exact ⟨state.memory, by simp [hpre], .inl rfl⟩

/-- The messages of the test leave everything else as it is. -/
theorem Chosen.setMemory {count : ℕ} {state : State cfg}
    (hstate : Chosen creates table count state) {memory : Memory cfg}
    (hmemory : memory = state.memory ∨ ∃ number, memory =
      state.memory.log (.printf (.heavyButAffordable number))) :
    Chosen creates table count { state with memory } := by
  rcases hmemory with rfl | ⟨number, rfl⟩
  · exact hstate
  · exact { hstate with
      assigned := by simpa using hstate.assigned
      splits := by simpa using hstate.splits
      printed := by
        simp only [Memory.printed_log, List.singleton_append,
          List.forall_mem_cons]
        exact ⟨⟨number, rfl⟩, hstate.printed⟩ }

theorem original_of_counts {stack : TaskStack cfg}
    (hcounts : Counts stack cfg.numOfTask) (index : Fin cfg.numOfTask) :
    stack.cell index = some (cfg.original index) := by
  obtain ⟨task, hcell, htask⟩ := hcounts.cell index.isLt
  rw [hcell, Option.some.injEq]
  exact Fin.ext htask

theorem Chosen.uq_room {state : State cfg} (index : Fin cfg.numOfTask)
    (hstate : Chosen creates table index state) :
    state.uq.entries.length < cfg.maxNumTasks := by
  have hlength := congrArg List.length hstate.uq
  rw [List.length_map, List.length_map] at hlength
  have hwaiting := waiting_length_le table index
  have hindex := index.isLt.trans_le cfg.numOfTask_le_maxNumTasks
  omega

/-- A task that does not get a core of its own waits. -/
theorem preAssignStep_of_not {state : State cfg} (index : Fin cfg.numOfTask)
    (hstate : Chosen creates table index state)
    (hpre : ¬PreAssigned table index) :
    ∃ after, preAssignStep index state = .ok after ∧
      Chosen creates table (index + 1) after := by
  obtain ⟨memory, htest, hmemory⟩ := preAssignTest_spec index hstate
  have hlogged := hstate.setMemory
    (hmemory.imp_right fun hlog => ⟨index + 1, hlog⟩)
  have hroom := hstate.uq_room index
  refine ⟨{ state with memory, uq := state.uq.push (cfg.original index) },
    ?_, ?_⟩
  · rw [preAssignStep, original_of_counts hstate.tasks index]
    simp only [htest, hpre, decide_false, pushTask, pushEntry_of_room hroom]
  · have hnext := prepare_succ_of_not hpre
    constructor
    · exact hstate.tasks
    · rw [Stack.entries_push _ hroom, hnext, List.map_cons, List.map_cons,
        hstate.uq]
      rfl
    · rw [hnext]
      exact hstate.free
    · exact hstate.coreBound
    · rw [hnext]
      exact hstate.reserve
    · exact hlogged.taskList
    · rw [hnext]
      exact hlogged.coreList
    · exact hlogged.currIdx
    · exact hlogged.created
    · rw [hnext]
      exact hlogged.assigned
    · exact hlogged.splits
    · exact hlogged.printed

/-- A task that passes the test takes the core on top of the stack. -/
theorem preAssignStep_of {state : State cfg} (index : Fin cfg.numOfTask)
    (hstate : Chosen creates table index state)
    (hpre : PreAssigned table index) :
    ∃ after, preAssignStep index state = .ok after ∧
      Chosen creates table (index + 1) after := by
  obtain ⟨memory, htest, hmemory⟩ := preAssignTest_spec index hstate
  have hlogged := hstate.setMemory
    (hmemory.imp_right fun hlog => ⟨index + 1, hlog⟩)
  obtain ⟨core, free, hfree, hnext⟩ := prepare_succ_of hpre
  have hentries : state.coreManager.list.entries = core :: free := by
    rw [hstate.free, hfree]
  have hroom : state.preAssignedCore.list.entries.length <
      cfg.numberOfCores := by
    rw [hstate.reserve, List.length_map, given_length]
    exact hpre.preCount_lt
  have hfresh : core ∉ (prepare table index).given.map Placement.core := by
    have hnodup := List.nodup_finRange cfg.numberOfCores
    rw [← prepare_partition table index, List.nodup_append,
      hfree] at hnodup
    exact fun hgiven => hnodup.2.2 core (by simp) core hgiven rfl
  have hempty : coreLoad (prepare table index).given core = 0 := by
    apply List.sum_eq_zero
    intro load hload
    obtain ⟨x, hx, rfl⟩ := List.mem_map.mp hload
    have hne : x.core ≠ core := fun heq =>
      hfresh (heq ▸ List.mem_map_of_mem hx)
    exact if_neg hne
  have hload : (memory.taskList (cfg.original index)).utilization =
      load table index := by
    rw [hlogged.taskList]
    exact initialInfo_utilization index.isLt
  refine ⟨{ state with
    memory := (assignTask (cfg.original index) core memory).setCore core
      { (assignTask (cfg.original index) core memory).coreList core with
        preAssigned := true }
    coreManager := { state.coreManager with
      list := state.coreManager.list.pop.2 }
    preAssignedCore := { state.preAssignedCore with
      list := state.preAssignedCore.list.push core } }, ?_, ?_⟩
  · rw [preAssignStep, original_of_counts hstate.tasks index]
    simp only [htest, hpre, decide_true, popCore, popEntry_of_cons hentries,
      pushCore, pushEntry_of_room hroom]
  · constructor
    · exact hstate.tasks
    · rw [hnext]
      exact hstate.uq
    · rw [hnext, entries_pop, hentries]
      rfl
    · exact hstate.coreBound
    · rw [hnext, Stack.entries_push _ hroom, hstate.reserve]
      rfl
    · exact hlogged.taskList
    · intro other
      rw [hnext]
      simp only [Memory.coreList_setCore, coreList_assignTask,
        Function.update_idem, Function.update_self, hload]
      by_cases hother : other = core
      · subst hother
        rw [Function.update_self, hlogged.coreList]
        simp [hempty, piece]
      · rw [Function.update_of_ne hother, hlogged.coreList]
        simp [hother, Ne.symm hother]
    · exact hlogged.currIdx
    · exact hlogged.created
    · rw [hnext, Memory.assigned_setCore, assigned_assignTask, List.map_cons,
        hlogged.assigned]
      rfl
    · exact hlogged.splits
    · exact hlogged.printed

/-- The normal-assign loop of the SPA2 branch is always reached. -/
theorem preAssign_spec (creates : ℕ → Option TaskHandle)
    (table : TaskTable cfg) :
    ∃ ready start, setup creates table = .ok ready ∧
      preAssign ready = .ok start ∧
      Chosen creates table cfg.numOfTask start := by
  obtain ⟨ready, hsetup, hready⟩ := setup_spec creates table
  obtain ⟨start, hrun, hstart⟩ := forAll_spec
    preAssignStep (Chosen creates table) ready hready
    (fun index state hstate => by
      by_cases hpre : PreAssigned table index
      · exact preAssignStep_of index hstate hpre
      · exact preAssignStep_of_not index hstate hpre)
  exact ⟨ready, start, hsetup, hrun, hstart⟩

theorem chosen_of_preAssign {ready start : State cfg}
    (hsetup : setup creates table = .ok ready)
    (hpre : preAssign ready = .ok start) :
    Chosen creates table cfg.numOfTask start := by
  obtain ⟨ready', start', hsetup', hpre', hstart⟩ := preAssign_spec creates table
  rw [hsetup] at hsetup'
  cases hsetup'
  rw [hpre] at hpre'
  cases hpre'
  exact hstart

end PicoSched.PreAssign
