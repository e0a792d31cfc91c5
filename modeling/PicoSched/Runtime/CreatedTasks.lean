import PicoSched.Allocation.SplitChains
import PicoSched.Model.Firmware
import PicoSched.Runtime.Deadlines

/-!
# The threads of an allocation

The tasks that `init_task` and `Task_split` have created become the threads of
the running program.  Each works on a copy of the record that its `vTask`
function reads, and the records that the allocation leaves are linked as the
running program needs it.
-/

namespace PicoSched.TaskManager

open Main PreAssign

variable {cfg : Config} {creates : ℕ → Option TaskHandle}
  {table : TaskTable cfg} {memory : Memory cfg}

/-- The tasks of `task_list` that exist. -/
def Memory.handles (memory : Memory cfg) : List TaskHandle :=
  (List.finRange cfg.maxNumTasks).filterMap fun slot =>
    (memory.taskList slot).myPtr

/-- The slot that a task was created for. -/
def Memory.slotOf (memory : Memory cfg) (handle : TaskHandle) : TaskPtr cfg :=
  ((List.finRange cfg.maxNumTasks).find? fun slot =>
    (memory.taskList slot).myPtr = some handle).getD
      (cfg.original ⟨0, cfg.tasks_pos⟩)

/-- The record a thread copies: `vTask` function `n` reads row `n`. -/
def Memory.threadInfo (memory : Memory cfg) (handle : TaskHandle) : TaskInfo :=
  let slot := memory.slotOf handle
  memory.taskList (((List.finRange cfg.maxNumTasks).find? fun row =>
    row.val = (memory.taskList slot).taskCode).getD slot)

/-- Row `n` of `task_list` has `vTask` function `n`. -/
def TaskTable.Numbered (table : TaskTable cfg) : Prop :=
  ∀ slot, (table.entry slot).taskCode = slot.val

theorem Memory.mem_handles {handle : TaskHandle} :
    handle ∈ memory.handles ↔
      ∃ slot, (memory.taskList slot).myPtr = some handle := by
  rw [Memory.handles, List.mem_filterMap]
  exact exists_congr fun slot => and_iff_right (List.mem_finRange slot)

theorem taskCode_splitMemory {task tail : TaskPtr cfg} (hne : tail ≠ task)
    (core : CorePtr cfg) (room : ℚ) (slot : TaskPtr cfg) :
    ((splitMemory creates task tail core room memory).taskList slot).taskCode =
      (memory.taskList slot).taskCode := by
  by_cases hbody : slot = task
  · rw [hbody, taskList_splitMemory_body]
    rfl
  · by_cases htail : slot = tail
    · rw [htail, taskList_splitMemory_tail _ _ _ _ _ _ hne]
      rfl
    · rw [taskList_splitMemory_of_ne _ _ _ _ _ _ hbody htail]

/-- Nothing changes the function of a slot. -/
theorem Built.taskCode_eq (hbuilt : Built creates table memory)
    (slot : TaskPtr cfg) :
    (memory.taskList slot).taskCode = (table.entry slot).taskCode := by
  induction hbuilt with
  | @init stack memory hinit =>
      obtain ⟨_, _, hinit', hcreated⟩ :=
        initTask_spec creates (initialMemory table)
          (rfl : (initialMemory table).taskList = table.entry) rfl
      rw [hinit] at hinit'
      cases hinit'
      rw [hcreated.taskList, initialInfo]
      split <;> rfl
  | log _ _ ih => exact ih
  | assign _ _ _ ih => exact ih
  | mark _ _ ih => exact ih
  | @split memory _ task tail core coreStack stack _ htask hnew ih =>
      obtain ⟨htail, rfl⟩ := newTask_eq_some hnew
      have hne : tail ≠ task := by
        rintro rfl
        exact htask.ne htail
      obtain ⟨room, _, hresult, _⟩ := taskSplit_cases hne core coreStack stack
      rw [← ih]
      rcases hresult with hresult | ⟨message, hresult⟩
      · rw [hresult]
        exact taskCode_splitMemory hne core room slot
      · rw [hresult]
        exact taskCode_splitMemory hne core room slot

end PicoSched.TaskManager

namespace PicoSched.Refinement

open Filling Main RunTask TaskManager

variable {cfg : Config} {creates : ℕ → Option TaskHandle}
  {table : TaskTable cfg} {state : State cfg} {memory : Memory cfg}
  {plan : Plan (CorePtr cfg)} {P : Problem (CorePtr cfg)}
  {stack : TaskStack cfg} {chain : Fin cfg.numOfTask → List (TaskPtr cfg)}
  {slot other body next : TaskPtr cfg} {handle : TaskHandle}

/-! ## Handles -/

namespace Represents

/-- A slot with a handle is in use, and the handle comes from its creation. -/
theorem creates_eq (hrep : Represents creates table P stack memory plan)
    (hptr : (memory.taskList slot).myPtr = some handle) :
    slot.val < memory.currIdx ∧ creates slot = some handle := by
  have hused : slot.val < memory.currIdx := by
    by_contra hunused
    rw [hrep.unused slot (not_lt.mp hunused), table.myPtr_eq] at hptr
    cases hptr
  exact ⟨hused, hrep.myPtr slot hused ▸ hptr⟩

theorem slot_eq (hrep : Represents creates table P stack memory plan)
    (hdistinct : DistinctHandles creates)
    (hslot : (memory.taskList slot).myPtr = some handle)
    (hother : (memory.taskList other).myPtr = some handle) : slot = other :=
  Fin.ext (hdistinct _ _ _ (hrep.creates_eq hslot).2 (hrep.creates_eq hother).2)

theorem slotOf_eq (hrep : Represents creates table P stack memory plan)
    (hdistinct : DistinctHandles creates)
    (hslot : (memory.taskList slot).myPtr = some handle) :
    memory.slotOf handle = slot := by
  cases hfind : (List.finRange cfg.maxNumTasks).find? fun slot =>
      (memory.taskList slot).myPtr = some handle with
  | none =>
      have hnone := List.find?_eq_none.mp hfind slot (List.mem_finRange slot)
      exact absurd (decide_eq_true hslot) hnone
  | some found =>
      have hfound : (memory.taskList found).myPtr = some handle := by
        simpa using List.find?_some hfind
      rw [Memory.slotOf, hfind, Option.getD_some,
        hrep.slot_eq hdistinct hfound hslot]

/-- A thread copies the record of the slot it was created for. -/
theorem threadInfo_eq (hrep : Represents creates table P stack memory plan)
    (hdistinct : DistinctHandles creates)
    (hcode : ∀ slot, (memory.taskList slot).taskCode = slot.val)
    (hslot : (memory.taskList slot).myPtr = some handle) :
    memory.threadInfo handle = memory.taskList slot := by
  rw [Memory.threadInfo, hrep.slotOf_eq hdistinct hslot, hcode]
  cases hfind : (List.finRange cfg.maxNumTasks).find? fun row =>
      row.val = slot.val with
  | none => rfl
  | some found =>
      have hfound : found.val = slot.val := by
        simpa using List.find?_some hfind
      rw [Option.getD_some, Fin.ext hfound]

theorem nodup_handles (hrep : Represents creates table P stack memory plan)
    (hdistinct : DistinctHandles creates) : memory.handles.Nodup := by
  refine (List.nodup_finRange _).filterMap ?_
  intro slot other handle hslot hother
  exact hrep.slot_eq hdistinct hslot hother

end Represents

/-! ## Links -/

/-- Every slot in use belongs to a task. -/
theorem Chains.exists_chain (hrep : Represents creates table P stack memory plan)
    (hchains : Chains table P memory plan chain)
    (hused : slot.val < memory.currIdx) : ∃ index, slot ∈ chain index := by
  have hmem : slot.val ∈ slotsInUse P plan :=
    hrep.slots_perm.mem_iff.mpr (List.mem_range.mpr hused)
  rcases List.mem_append.mp hmem with hqueue | hplaced
  · obtain ⟨p, hp, hslot⟩ := List.mem_map.mp hqueue
    obtain ⟨index, hindex, _⟩ := (hrep.waiting slot p hp hslot.symm).1.origin
    refine ⟨index, (hchains.member index slot).mpr ?_⟩
    rw [← hslot, hindex]
    exact List.mem_append_left _
      (List.mem_map_of_mem (f := fun p => (p.slot, p.task)) hp)
  · obtain ⟨x, hx, hslot⟩ := List.mem_map.mp hplaced
    obtain ⟨index, hindex, _⟩ := (hrep.placed slot x hx hslot.symm).1.origin
    refine ⟨index, (hchains.member index slot).mpr ?_⟩
    rw [← hslot, hindex]
    exact List.mem_append_right _
      (List.mem_map_of_mem (f := fun x => (x.piece.slot, x.piece.task)) hx)

/-- A tail has the period of its body. -/
theorem Chains.period_eq (hrep : Represents creates table P stack memory plan)
    (hchains : Chains table P memory plan chain)
    (hsplit : (body, next) ∈ memory.splits) :
    (memory.taskList next).period = (memory.taskList body).period := by
  obtain ⟨index, hbody⟩ :=
    hchains.exists_chain hrep (hrep.splits_lt _ hsplit).1
  have hnext := hchains.inside _ hsplit index hbody
  rw [(hchains.origin hrep hnext).1, (hchains.origin hrep hbody).1]

theorem Link.ne (hlink : Link memory next body) : next ≠ body := by
  rintro rfl
  have hsubnum := hlink.subnum
  omega

/-! ## The threads -/

/-- A thread works on the record of its task. -/
theorem threadInfo_of_head (hdistinct : DistinctHandles creates)
    (hnumbered : table.Numbered) (hhead : Spa2Head creates table state)
    (hslot : (state.memory.taskList slot).myPtr = some handle) :
    state.memory.threadInfo handle = state.memory.taskList slot := by
  obtain ⟨plan, hplan⟩ := spa2Head_state hhead
  refine hplan.represents.threadInfo_eq hdistinct (fun row => ?_) hslot
  rw [(built_of_spa2Head hhead).taskCode_eq, hnumbered]

/-- The threads of the tasks that exist at a head of the loop. -/
def createdTasks (hdistinct : DistinctHandles creates)
    (hnumbered : table.Numbered) (hhead : Spa2Head creates table state) :
    TaskSet where
  handles := state.memory.handles
  info := state.memory.threadInfo
  own handle hmem := by
    obtain ⟨slot, hslot⟩ := Memory.mem_handles.mp hmem
    rw [threadInfo_of_head hdistinct hnumbered hhead hslot, hslot]
  linked handle hmem successor hptr := by
    obtain ⟨plan, chain, hstate⟩ := spa2Head_chains hhead
    have hrep := hstate.head.represents
    obtain ⟨slot, hslot⟩ := Memory.mem_handles.mp hmem
    rw [threadInfo_of_head hdistinct hnumbered hhead hslot] at hptr ⊢
    obtain ⟨next, hlink⟩ := hstate.chains.linked slot
      (hptr ▸ Option.some_ne_none successor)
    have hnext := hlink.splittedPtr.symm.trans hptr
    rw [threadInfo_of_head hdistinct hnumbered hhead hnext]
    refine ⟨Memory.mem_handles.mpr ⟨next, hnext⟩, ?_, hlink.dependency,
      hstate.chains.period_eq hrep hlink.cut⟩
    rintro rfl
    exact hlink.ne (hrep.slot_eq hdistinct hnext hslot)
  single handle hmem other hother successor hptr hptr' := by
    obtain ⟨plan, chain, hstate⟩ := spa2Head_chains hhead
    have hrep := hstate.head.represents
    obtain ⟨first, hfirst⟩ := Memory.mem_handles.mp hmem
    obtain ⟨second, hsecond⟩ := Memory.mem_handles.mp hother
    rw [threadInfo_of_head hdistinct hnumbered hhead hfirst] at hptr
    rw [threadInfo_of_head hdistinct hnumbered hhead hsecond] at hptr'
    obtain ⟨next, hlink⟩ := hstate.chains.linked first
      (hptr ▸ Option.some_ne_none successor)
    obtain ⟨next', hlink'⟩ := hstate.chains.linked second
      (hptr' ▸ Option.some_ne_none successor)
    -- both bodies were split into the same tail
    obtain rfl := hrep.slot_eq hdistinct (hlink.splittedPtr.symm.trans hptr)
      (hlink'.splittedPtr.symm.trans hptr')
    obtain rfl := hrep.body_eq hlink.cut hlink'.cut
    exact Option.some.inj (hfirst.symm.trans hsecond)

/-- The program on the kernel that runs the created tasks, with `MonitorTask`
beside them. -/
def createdSetup (hdistinct : DistinctHandles creates)
    (hnumbered : table.Numbered) (hhead : Spa2Head creates table state)
    (kernel : DelayedTasks.Setup TaskHandle) (monitor : TaskHandle)
    (hmonitor : monitor ∉ state.memory.handles) : Firmware.Setup where
  tasks := createdTasks hdistinct hnumbered hhead
  kernel := kernel
  monitor := monitor
  myPtr := (List.finRange cfg.maxNumTasks).map fun slot =>
    (state.memory.taskList slot).myPtr
  distinct := by
    obtain ⟨plan, hplan⟩ := spa2Head_state hhead
    exact List.nodup_cons.mpr
      ⟨hmonitor, hplan.represents.nodup_handles hdistinct⟩

/-! ## Chains -/

/-- The tasks of the pieces of a task. -/
def pieceHandles (state : State cfg) (pieces : List (TaskPtr cfg)) :
    List TaskHandle :=
  pieces.filterMap fun slot => (state.memory.taskList slot).myPtr

/-- When the creations have succeeded, every piece of a task is a thread, and
each resumes the next. -/
theorem exists_createdChain (hdistinct : DistinctHandles creates)
    (hnumbered : table.Numbered) (hhead : Spa2Head creates table state)
    (hcreates : ∀ call < state.memory.currIdx, creates call ≠ none) (index : Fin cfg.numOfTask) :
    ∃ pieces first rest,
      SplitChain (fun place => (place + 1) % 2 ^ 8) table state index pieces ∧
        pieceHandles state pieces = first :: rest ∧
        pieces.length = rest.length + 1 ∧
        (createdTasks hdistinct hnumbered hhead).Chain first rest := by
  obtain ⟨plan, chain, hstate⟩ := spa2Head_chains hhead
  have hrep := hstate.head.represents
  have hsplit := hstate.splitChain hdistinct hcreates index
  have hhandle : ∀ slot ∈ (chain index).reverse, ∃ handle,
      (state.memory.taskList slot).myPtr = some handle := by
    intro slot hslot
    rw [List.mem_reverse, hstate.chains.member] at hslot
    have hused := hrep.slot_lt_of_mem hslot
    rw [hrep.myPtr slot hused]
    exact Option.ne_none_iff_exists'.mp (hcreates slot hused)
  choose! handle hhandle using hhandle
  have hhandles : pieceHandles state (chain index).reverse =
      (chain index).reverse.map handle := by
    rw [pieceHandles, ← List.filterMap_eq_map]
    exact List.filterMap_congr hhandle
  obtain ⟨rest, hpieces⟩ := List.head?_eq_some_iff.mp hsplit.first
  have hmem : cfg.original index ∈ (chain index).reverse :=
    hpieces ▸ List.mem_cons_self ..
  refine ⟨_, handle (cfg.original index), rest.map handle, hsplit, ?_, ?_, ?_,
    ?_⟩
  · rw [hhandles, hpieces, List.map_cons]
  · rw [hpieces, List.length_cons, List.length_map]
  · exact Memory.mem_handles.mpr ⟨_, hhandle _ hmem⟩
  · rw [← List.map_cons, ← hpieces, List.isChain_map]
    apply hsplit.linked.imp_of_mem_imp
    intro piece next hpiece hnext hlink
    have hinfo := threadInfo_of_head hdistinct hnumbered hhead
      (hhandle piece hpiece)
    change (state.memory.threadInfo (handle piece)).splittedPtr = _
    rw [hinfo, hlink.1, hhandle next hnext]

end PicoSched.Refinement
