import PicoSched.Allocation.Setup
import PicoSched.Model.Kernel

/-!
# What the kernel knows about the pieces

The calls of `init_task`, `Task_split` and `Assign_task` leave a control block
for every created piece, with its priority as far as the kernel has so many,
and with the core of its latest assignment.
-/

namespace PicoSched.TaskManager

open BoundedStack Kernel Loop Main PreAssign

variable {cfg : Config}

/-- The core of the latest `Assign_task` of the piece. -/
def Memory.coreOf (memory : Memory cfg) (task : TaskPtr cfg) :
    Option (CorePtr cfg) :=
  (memory.assigned.find? fun given => given.1 = task).map Prod.snd

/-- The control block of a created piece. -/
def Memory.pieceTcb (memory : Memory cfg) (task : TaskPtr cfg) : Tcb :=
  { prvInitialiseNewTask (memory.taskList task).priority with
    uxCoreAffinityMask :=
      match memory.coreOf task with
      | some core => 1 <<< core.val
      | none => tskNoAffinity }

/-- No two successful calls of `xTaskCreate` give the same handle. -/
def DistinctHandles (creates : ℕ → Option TaskHandle) : Prop :=
  ∀ first second handle, creates first = some handle →
    creates second = some handle → first = second

/-- The memories `init_task` leads to, with any further calls of `Task_split`
for new slots and of `Assign_task` for created pieces. -/
inductive Built (creates : ℕ → Option TaskHandle) (table : TaskTable cfg) :
    Memory cfg → Prop
  | init {stack : TaskStack cfg} {memory : Memory cfg}
      (hinit : initTask creates (initialMemory table) = .ok (stack, memory)) :
      Built creates table memory
  | log {memory : Memory cfg} (message : Message)
      (hbuilt : Built creates table memory) :
      Built creates table (memory.log (.printf message))
  | assign {memory : Memory cfg} {task : TaskPtr cfg} (core : CorePtr cfg)
      (hbuilt : Built creates table memory) (htask : task.val < memory.currIdx) :
      Built creates table (assignTask task core memory)
  | mark {memory : Memory cfg} (core : CorePtr cfg)
      (hbuilt : Built creates table memory) :
      Built creates table (memory.setCore core
        { memory.coreList core with preAssigned := true })
  | split {memory after : Memory cfg} {task tail : TaskPtr cfg}
      (core : CorePtr cfg) (coreStack : CoreStack cfg) (stack : TaskStack cfg)
      (hbuilt : Built creates table memory) (htask : task.val < memory.currIdx)
      (hnew : newTask memory = (some tail, after)) :
      Built creates table
        (taskSplit creates task tail core coreStack stack after).2

/-! ## The records of the kernel -/

/-- The first `count` slots have been created and are known to the kernel. -/
structure Registered (creates : ℕ → Option TaskHandle)
    (others : TaskHandle → Tcb) (count : ℕ) (memory : Memory cfg) : Prop where
  created : memory.created = count
  handle : ∀ task : TaskPtr cfg, task.val < count →
    (memory.taskList task).myPtr = creates task
  fresh : ∀ task : TaskPtr cfg, count ≤ task.val → (memory.taskList task).myPtr = none
  given : ∀ pair ∈ memory.assigned, pair.1.val < count
  coreNum : ∀ core, (memory.coreList core).coreNum = 1 <<< core.val
  tcb : ∀ task : TaskPtr cfg, task.val < count → ∀ handle, creates task = some handle →
    tcbAfter others memory.calls handle = memory.pieceTcb task

variable {creates : ℕ → Option TaskHandle} {table : TaskTable cfg}
  {others : TaskHandle → Tcb} {count : ℕ} {memory after : Memory cfg}
  {task tail : TaskPtr cfg} {core : CorePtr cfg}

theorem Registered.coreOf_eq_none (hreg : Registered creates others count memory)
    (htask : count ≤ task.val) : memory.coreOf task = none := by
  rw [Memory.coreOf, Option.map_eq_none_iff, List.find?_eq_none]
  intro given hgiven
  have hlt := hreg.given given hgiven
  rw [decide_eq_true_iff]
  rintro rfl
  omega

/-- A step that creates no task and assigns none. -/
theorem Registered.frame (hreg : Registered creates others count memory)
    (hcreated : after.created = memory.created)
    (hinfo : ∀ slot, (after.taskList slot).myPtr = (memory.taskList slot).myPtr ∧
      (after.taskList slot).priority = (memory.taskList slot).priority)
    (hassigned : after.assigned = memory.assigned)
    (hcoreNum : ∀ core, (after.coreList core).coreNum =
      (memory.coreList core).coreNum)
    (htcb : ∀ handle, tcbAfter others after.calls handle =
      tcbAfter others memory.calls handle) :
    Registered creates others count after where
  created := hcreated.trans hreg.created
  handle slot hslot := (hinfo slot).1.trans (hreg.handle slot hslot)
  fresh slot hslot := (hinfo slot).1.trans (hreg.fresh slot hslot)
  given := hassigned ▸ hreg.given
  coreNum core := (hcoreNum core).trans (hreg.coreNum core)
  tcb slot hslot handle hhandle := by
    rw [htcb, hreg.tcb slot hslot handle hhandle, Memory.pieceTcb,
      Memory.pieceTcb, Memory.coreOf, Memory.coreOf, hassigned, (hinfo slot).2]

/-- A step that creates the task of the next slot. -/
theorem Registered.create (hdistinct : DistinctHandles creates)
    (hreg : Registered creates others count memory) (task : TaskPtr cfg)
    (htask : task.val = count) {taskCode : ℕ} {taskName : String} {calls : List (Call cfg)}
    (hcreated : after.created = count + 1)
    (hnew : (after.taskList task).myPtr = creates task)
    (hinfo : ∀ slot, slot ≠ task →
      (after.taskList slot).myPtr = (memory.taskList slot).myPtr ∧
        (after.taskList slot).priority = (memory.taskList slot).priority)
    (hassigned : after.assigned = memory.assigned)
    (hcoreNum : ∀ core, (after.coreList core).coreNum =
      (memory.coreList core).coreNum)
    (hcalls : after.calls = .xTaskCreate task taskCode taskName
      (after.taskList task).priority (creates task) :: calls)
    (htcb : ∀ handle, tcbAfter others calls handle =
      tcbAfter others memory.calls handle) :
    Registered creates others (count + 1) after where
  created := hcreated
  handle slot hslot := by
    by_cases hsame : slot = task
    · rw [hsame, hnew]
    · have hne : slot.val ≠ task.val := fun heq => hsame (Fin.ext heq)
      rw [(hinfo slot hsame).1]
      exact hreg.handle slot (by omega)
  fresh slot hslot := by
    have hne : slot ≠ task := by
      rintro rfl
      omega
    rw [(hinfo slot hne).1]
    exact hreg.fresh slot (by omega)
  given pair hpair := by
    rw [hassigned] at hpair
    exact Nat.lt_succ_of_lt (hreg.given pair hpair)
  coreNum core := (hcoreNum core).trans (hreg.coreNum core)
  tcb slot hslot handle hhandle := by
    rw [hcalls]
    by_cases hsame : slot = task
    · subst hsame
      have hcore : after.coreOf slot = none := by
        rw [Memory.coreOf, hassigned]
        exact hreg.coreOf_eq_none htask.ge
      rw [hhandle, tcbAfter, if_pos rfl, Memory.pieceTcb, hcore]
      rfl
    · have hne : slot.val ≠ task.val := fun heq => hsame (Fin.ext heq)
      have hkept : tcbAfter others (.xTaskCreate task taskCode taskName
          (after.taskList task).priority (creates task) :: calls) handle =
            tcbAfter others calls handle := by
        cases hcreate : creates task with
        | none => rfl
        | some created =>
            rw [tcbAfter, if_neg]
            rintro rfl
            exact hne (hdistinct _ _ _ hhandle hcreate)
      rw [hkept, htcb, hreg.tcb slot (by omega) handle hhandle, Memory.pieceTcb,
        Memory.pieceTcb, Memory.coreOf, Memory.coreOf, hassigned,
        (hinfo slot hsame).2]

theorem coreOf_assignTask (task slot : TaskPtr cfg) (core : CorePtr cfg)
    (memory : Memory cfg) :
    (assignTask task core memory).coreOf slot =
      if task = slot then some core else memory.coreOf slot := by
  rw [Memory.coreOf, assigned_assignTask, List.find?_cons]
  by_cases hslot : task = slot
  · simp [hslot]
  · simp [hslot, Memory.coreOf]

theorem Registered.assign (hdistinct : DistinctHandles creates)
    (hreg : Registered creates others count memory) (htask : task.val < count)
    (core : CorePtr cfg) :
    Registered creates others count (assignTask task core memory) where
  created := hreg.created
  handle := hreg.handle
  fresh := hreg.fresh
  given := by
    rw [assigned_assignTask, List.forall_mem_cons]
    exact ⟨htask, hreg.given⟩
  coreNum other := by
    rw [coreList_assignTask]
    by_cases hother : other = core
    · subst hother
      rw [Function.update_self]
      exact hreg.coreNum other
    · rw [Function.update_of_ne hother]
      exact hreg.coreNum other
  tcb slot hslot handle hhandle := by
    have hcalls : (assignTask task core memory).calls =
        .assignTask task core (creates task) (1 <<< core.val) ::
          memory.calls := by
      rw [← hreg.handle task htask, ← hreg.coreNum core]
      rfl
    have hbefore := hreg.tcb slot hslot handle hhandle
    rw [hcalls, Memory.pieceTcb, coreOf_assignTask]
    by_cases hsame : task = slot
    · subst hsame
      rw [hhandle, tcbAfter, if_pos rfl, if_pos rfl, hbefore]
      rfl
    · have hkept : tcbAfter others (.assignTask task core (creates task)
          (1 <<< core.val) :: memory.calls) handle =
            tcbAfter others memory.calls handle := by
        cases hassigned : creates task with
        | none => rfl
        | some assigned =>
            rw [tcbAfter, if_neg]
            rintro rfl
            exact hsame (Fin.ext (hdistinct _ _ _ hassigned hhandle))
      rw [hkept, if_neg hsame, hbefore]
      rfl

theorem registered_initTaskStep (hdistinct : DistinctHandles creates)
    (index : Fin cfg.numOfTask)
    (hreg : Registered creates others index memory) :
    Registered creates others (index + 1)
      (initTaskMemory creates (cfg.original index) memory) := by
  have hfresh := hreg.fresh (cfg.original index) le_rfl
  have hcreated := hreg.created
  apply hreg.create hdistinct (cfg.original index) rfl
  · simp [initTaskMemory, hcreated]
  · simp [initTaskMemory, hcreated, hfresh]
  · intro slot hslot
    simp [initTaskMemory, hslot]
  · rfl
  · exact fun _ => rfl
  · simp only [initTaskMemory, xTaskCreate, Memory.log, Memory.setTask,
      Function.update_self, hcreated]
    rfl
  · exact fun _ => rfl

theorem registered_initTask (hdistinct : DistinctHandles creates)
    {stack : TaskStack cfg} {others : TaskHandle → Tcb}
    (hinit : initTask creates (initialMemory table) = .ok (stack, memory)) :
    Registered creates others cfg.numOfTask memory ∧
      memory.currIdx = cfg.numOfTask := by
  obtain ⟨⟨stack', memory'⟩, hrun, _, hcurrIdx, hreg⟩ := forAll_spec
    (initTaskStep creates)
    (fun count state => Counts state.1 count ∧
      state.2.currIdx = cfg.numOfTask ∧
        Registered creates others count state.2)
    (Stack.empty, initialMemory table)
    ⟨rfl, rfl, rfl, fun _ hslot => absurd hslot (Nat.not_lt_zero _),
      fun slot _ => table.myPtr_eq slot, nofun, fun _ => rfl,
      fun _ hslot => absurd hslot (Nat.not_lt_zero _)⟩
    (fun index state hstate => by
      obtain ⟨hcounts, hcurrIdx, hreg⟩ := hstate
      obtain ⟨hstep, hpush⟩ := initTaskStep_eq creates index hcounts
      exact ⟨_, hstep, hpush, hcurrIdx,
        registered_initTaskStep hdistinct index hreg⟩)
  rw [initTask, hrun] at hinit
  cases hinit
  exact ⟨hreg, hcurrIdx⟩

theorem registered_splitMemory (hdistinct : DistinctHandles creates)
    (hreg : Registered creates others count memory) (htask : task.val < count)
    (htail : tail.val = count) (core : CorePtr cfg) (room : ℚ) (index : ℕ) :
    Registered creates others (count + 1) (splitMemory creates task tail core
      room { memory with currIdx := index }) := by
  have hne : tail ≠ task := by
    rintro rfl
    omega
  have hfresh := hreg.fresh tail htail.ge
  have hcreated := hreg.created
  apply hreg.create hdistinct tail htail
  · rw [created_splitMemory, hcreated]
  · rw [taskList_splitMemory_tail _ _ _ _ _ _ hne, htail, ← hcreated]
    simp [tailInfo, hfresh]
  · intro slot hslot
    by_cases hbody : slot = task
    · subst hbody
      rw [taskList_splitMemory_body]
      exact ⟨rfl, rfl⟩
    · rw [taskList_splitMemory_of_ne _ _ _ _ _ _ hbody hslot]
      exact ⟨rfl, rfl⟩
  · rfl
  · exact fun _ => rfl
  · rw [taskList_splitMemory_tail _ _ _ _ _ _ hne, htail, ← hcreated]
    rfl
  · exact fun _ => rfl

theorem newTask_eq_some (hnew : newTask memory = (some tail, after)) :
    tail.val = memory.currIdx ∧
      after = { memory with currIdx := memory.currIdx + 1 } := by
  rw [newTask] at hnew
  split at hnew
  · cases hnew
    exact ⟨rfl, rfl⟩
  · cases hnew

/-- A split makes the records of `splitMemory`, and its push may print a line. -/
theorem taskSplit_cases (hne : tail ≠ task) (core : CorePtr cfg)
    (coreStack : CoreStack cfg) (stack : TaskStack cfg) :
    ∃ room, ∃ stack',
      (taskSplit creates task tail core coreStack stack memory =
          (stack', splitMemory creates task tail core room memory) ∨
        ∃ message, taskSplit creates task tail core coreStack stack memory =
          (stack', (splitMemory creates task tail core room memory).log
            (.printf message))) ∧
      ∀ slot ∈ stack'.entries, slot = tail ∨ slot ∈ stack.entries := by
  refine ⟨coreStack.utilizationBound - (memory.coreList core).utilization, ?_⟩
  rw [taskSplit_eq creates task tail core memory hne, pushTask, pushEntry]
  by_cases hfull : stack.isFull = true
  · rw [if_pos hfull]
    exact ⟨stack, .inr ⟨_, rfl⟩, fun _ hslot => .inr hslot⟩
  · rw [if_neg hfull]
    refine ⟨stack.push tail, .inl rfl, ?_⟩
    rw [Bool.not_eq_true, Stack.isFull_eq_false_iff] at hfull
    rw [Stack.entries_push _ hfull]
    exact fun slot hslot => List.mem_cons.mp hslot

/-- Every built memory has its created pieces registered. -/
theorem Built.registered (hbuilt : Built creates table memory)
    (hdistinct : DistinctHandles creates) (others : TaskHandle → Tcb) :
    Registered creates others memory.currIdx memory := by
  induction hbuilt with
  | init hinit =>
      obtain ⟨hreg, hcurrIdx⟩ := registered_initTask hdistinct hinit
      rwa [hcurrIdx]
  | log message _ ih =>
      exact ih.frame rfl (fun _ => ⟨rfl, rfl⟩) rfl (fun _ => rfl) fun _ => rfl
  | assign core _ htask ih => exact ih.assign hdistinct htask core
  | mark core _ ih =>
      refine ih.frame rfl (fun _ => ⟨rfl, rfl⟩) rfl (fun other => ?_) fun _ => rfl
      by_cases hother : other = core
      · subst hother
        rw [Memory.coreList_setCore, Function.update_self]
      · rw [Memory.coreList_setCore, Function.update_of_ne hother]
  | split core coreStack stack _ htask hnew ih =>
      obtain ⟨htail, rfl⟩ := newTask_eq_some hnew
      have hne : _ ≠ _ := fun heq => (htail ▸ htask.ne') (congrArg Fin.val heq)
      obtain ⟨room, stack', hresult, _⟩ := taskSplit_cases hne core coreStack stack
      have hsplit := registered_splitMemory hdistinct ih htask htail core room
      rcases hresult with hresult | ⟨message, hresult⟩
      · rw [hresult]
        exact hsplit _
      · rw [hresult]
        exact (hsplit _).frame rfl (fun _ => ⟨rfl, rfl⟩) rfl (fun _ => rfl)
          fun _ => rfl

/-! ## The memories of `main` -/

/-- The pieces on a stack are among the created ones. -/
def OnStack (stack : TaskStack cfg) (memory : Memory cfg) : Prop :=
  ∀ task ∈ stack.entries, task.val < memory.currIdx

theorem Built.assignOrSplit {stack stack' : TaskStack cfg}
    {coreManager : CoreStack cfg} (hbuilt : Built creates table memory)
    (htask : task.val < memory.currIdx) (hstack : OnStack stack memory)
    (hresult : assignOrSplit creates task core coreManager stack memory =
      .ok (stack', after)) :
    Built creates table after ∧ OnStack stack' after := by
  rw [Main.assignOrSplit] at hresult
  split at hresult
  · cases hresult
    exact ⟨hbuilt.assign core htask, hstack⟩
  · split at hresult
    · cases hresult
    · rename_i tail middle hnew
      cases hresult
      have hsplit := hbuilt.split core coreManager stack htask hnew
      obtain ⟨htail, rfl⟩ := newTask_eq_some hnew
      have hne : tail ≠ task := by
        rintro rfl
        omega
      obtain ⟨room, stack', hsame, hentries⟩ :=
        taskSplit_cases hne core coreManager stack
      have hcurrIdx : (taskSplit creates task tail core coreManager stack
          { memory with currIdx := memory.currIdx + 1 }).2.currIdx =
            memory.currIdx + 1 := by
        rcases hsame with hsame | ⟨message, hsame⟩ <;> rw [hsame] <;> rfl
      have hstack' : (taskSplit creates task tail core coreManager stack
          { memory with currIdx := memory.currIdx + 1 }).1 = stack' := by
        rcases hsame with hsame | ⟨message, hsame⟩ <;> rw [hsame]
      refine ⟨hsplit.assign core ?_, fun slot hslot => ?_⟩
      · rw [hcurrIdx]
        exact Nat.lt_succ_of_lt htask
      · rw [currIdx_assignTask, hcurrIdx]
        rw [hstack'] at hslot
        rcases hentries slot hslot with rfl | hold
        · omega
        · exact Nat.lt_succ_of_lt (hstack slot hold)

theorem popTask_eq_some {stack stack' : TaskStack cfg}
    (hpop : popTask stack memory = (some task, stack', after)) :
    stack.entries = task :: stack'.entries ∧ after = memory := by
  cases hentries : stack.entries with
  | nil =>
      rw [popTask, popEntry_of_nil hentries] at hpop
      cases hpop
  | cons first rest =>
      rw [popTask, popEntry_of_cons hentries] at hpop
      cases hpop
      rw [entries_pop, hentries]
      exact ⟨rfl, rfl⟩

theorem OnStack.pop {stack stack' : TaskStack cfg} (hstack : OnStack stack memory)
    (hentries : stack.entries = task :: stack'.entries) :
    task.val < memory.currIdx ∧ OnStack stack' memory := by
  rw [OnStack, hentries, List.forall_mem_cons] at hstack
  exact hstack

theorem Built.pushTask {stack : TaskStack cfg} (hbuilt : Built creates table memory)
    (hstack : OnStack stack memory) (htask : task.val < memory.currIdx) :
    Built creates table (pushTask task stack memory).2 ∧
      OnStack (pushTask task stack memory).1
        (pushTask task stack memory).2 := by
  rw [TaskManager.pushTask, pushEntry]
  by_cases hfull : stack.isFull = true
  · rw [if_pos hfull]
    exact ⟨hbuilt.log _, hstack⟩
  · rw [if_neg hfull]
    refine ⟨hbuilt, ?_⟩
    rw [Bool.not_eq_true, Stack.isFull_eq_false_iff] at hfull
    rw [OnStack, Stack.entries_push _ hfull, List.forall_mem_cons]
    exact ⟨htask, hstack⟩

theorem Built.pushCore (hbuilt : Built creates table memory) (core : CorePtr cfg)
    (stack : CoreStack cfg) :
    Built creates table (pushCore core stack memory).2 ∧
      (pushCore core stack memory).2.currIdx = memory.currIdx := by
  rw [TaskManager.pushCore, pushEntry]
  by_cases hfull : stack.list.isFull = true
  · rw [if_pos hfull]
    exact ⟨hbuilt.log _, rfl⟩
  · rw [if_neg hfull]
    exact ⟨hbuilt, rfl⟩

theorem built_setup {ready : State cfg} (hsetup : setup creates table = .ok ready) :
    Built creates table ready.memory := by
  obtain ⟨coreManager, hcore, _⟩ :=
    initCore_spec (⟨Stack.empty, 0⟩ : CoreStack cfg) (initialMemory table)
  rw [setup, hcore] at hsetup
  dsimp only at hsetup
  split at hsetup
  · cases hsetup
  · rename_i stack memory hinit
    cases hsetup
    exact .init hinit

theorem selectCore_eq_some {minCore : CorePtr cfg}
    {preAssignedCore preAssignedCore' : CoreStack cfg}
    (hselect : selectCore minCore preAssignedCore memory =
      .ok (some core, preAssignedCore', after)) : after = memory := by
  rw [selectCore] at hselect
  split at hselect
  · cases hentries : preAssignedCore.list.entries with
    | nil =>
        rw [popCore, popEntry_of_nil hentries] at hselect
        cases hselect
    | cons first rest =>
        rw [popCore, popEntry_of_cons hentries] at hselect
        dsimp only at hselect
        split at hselect
        · cases hselect
        · cases hselect
          rfl
  · cases hselect
    rfl

theorem built_normalAssignBody {state state' : State cfg}
    (hbuilt : Built creates table state.memory)
    (hstack : OnStack state.uq state.memory)
    (hbody : normalAssignBody creates state = .ok (.next state')) :
    Built creates table state'.memory ∧ OnStack state'.uq state'.memory := by
  rw [normalAssignBody] at hbody
  split at hbody
  · cases hbody
  · split at hbody
    · cases hbody
    · rename_i task uq memory hpop
      obtain ⟨hentries, rfl⟩ := popTask_eq_some hpop
      obtain ⟨htask, hrest⟩ := hstack.pop hentries
      split at hbody
      · cases hbody
      · cases hbody
      · rename_i core preAssignedCore memory hselect
        obtain rfl := selectCore_eq_some hselect
        split at hbody
        · cases hbody
        · rename_i uq' memory hassign
          obtain ⟨hbuilt', hstack'⟩ :=
            hbuilt.assignOrSplit htask hrest hassign
          split at hbody
          · cases hbody
            obtain ⟨hpushed, hcurrIdx⟩ := hbuilt'.pushCore core preAssignedCore
            refine ⟨hpushed, fun slot hslot => ?_⟩
            rw [hcurrIdx]
            exact hstack' slot hslot
          · cases hbody
            exact ⟨hbuilt', hstack'⟩

theorem built_preAssignStep {state state' : State cfg} (index : Fin cfg.numOfTask)
    (hcell : state.taskManager.cell index = some task)
    (htask : task.val < state.memory.currIdx)
    (hbuilt : Built creates table state.memory)
    (hstack : OnStack state.uq state.memory)
    (htest : ∃ first memory, preAssignTest index task state =
      .ok (first, memory) ∧ (memory = state.memory ∨
        ∃ message, memory = state.memory.log (.printf message)))
    (hstep : preAssignStep index state = .ok state') :
    Built creates table state'.memory ∧ OnStack state'.uq state'.memory := by
  obtain ⟨first, memory, htest, hmemory⟩ := htest
  have hlogged : Built creates table memory ∧
      memory.currIdx = state.memory.currIdx := by
    rcases hmemory with rfl | ⟨message, rfl⟩
    · exact ⟨hbuilt, rfl⟩
    · exact ⟨hbuilt.log message, rfl⟩
  have hkept : OnStack state.uq memory := by
    rw [OnStack, hlogged.2]
    exact hstack
  simp only [preAssignStep, hcell, htest] at hstep
  cases first with
  | false =>
      cases hstep
      exact hlogged.1.pushTask hkept (hlogged.2 ▸ htask)
  | true =>
      cases hentries : state.coreManager.list.entries with
      | nil =>
          simp only [popCore, popEntry_of_nil hentries] at hstep
          cases hstep
      | cons core rest =>
          simp only [popCore, popEntry_of_cons hentries] at hstep
          cases hstep
          have hmarked := (hlogged.1.assign core (hlogged.2 ▸ htask)).mark core
          obtain ⟨hpushed, hcurrIdx⟩ := hmarked.pushCore core state.preAssignedCore
          refine ⟨hpushed, fun slot hslot => ?_⟩
          rw [hcurrIdx]
          exact hkept slot hslot

theorem built_preAssign {ready start : State cfg}
    (hsetup : setup creates table = .ok ready)
    (hstart : preAssign ready = .ok start) :
    Built creates table start.memory ∧ OnStack start.uq start.memory := by
  have hchosen := chosen_of_setup hsetup
  have hempty : OnStack ready.uq ready.memory := by
    have huq : ready.uq.entries = [] := List.map_eq_nil_iff.mp hchosen.uq
    rw [OnStack, huq]
    nofun
  obtain ⟨start', hrun, _, hbuilt⟩ := forAll_spec preAssignStep
    (fun count state => Chosen creates table count state ∧
      Built creates table state.memory ∧ OnStack state.uq state.memory)
    ready ⟨hchosen, built_setup hsetup, hempty⟩
    (fun index state hstate => by
      obtain ⟨hchosen, hbuilt, hstack⟩ := hstate
      obtain ⟨memory, htest, hmemory⟩ := preAssignTest_spec index hchosen
      have htest' : ∃ first memory, preAssignTest index (cfg.original index)
          state = .ok (first, memory) ∧ (memory = state.memory ∨
            ∃ message, memory = state.memory.log (.printf message)) :=
        ⟨_, memory, htest, hmemory.imp_right fun hlog => ⟨_, hlog⟩⟩
      have hstep : ∃ after, preAssignStep index state = .ok after ∧
          Chosen creates table (index + 1) after := by
        by_cases hpre : PreAssigned table index
        · exact preAssignStep_of index hchosen hpre
        · exact preAssignStep_of_not index hchosen hpre
      obtain ⟨after, hafter, hnext⟩ := hstep
      refine ⟨after, hafter, hnext, ?_⟩
      exact built_preAssignStep index (original_of_counts hchosen.tasks index)
        (by rw [hchosen.currIdx]; exact index.isLt) hbuilt hstack htest' hafter)
  rw [preAssign, hrun] at hstart
  cases hstart
  exact hbuilt

/-- The memories at the heads of the SPA2 loop are built. -/
theorem built_of_spa2Head {state : State cfg}
    (hhead : Spa2Head creates table state) :
    Built creates table state.memory := by
  obtain ⟨ready, start, hsetup, hstart, hhead⟩ := hhead
  have hboth : Built creates table state.memory ∧
      OnStack state.uq state.memory := by
    apply hhead.invariant
    · exact built_preAssign hsetup hstart
    · rintro state after ⟨hbuilt, hstack⟩ _ hbody
      exact built_normalAssignBody hbuilt hstack hbody
  exact hboth.1

end PicoSched.TaskManager
