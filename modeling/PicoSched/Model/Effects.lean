import PicoSched.Model.Main

/-!
# What the functions do to the memory

One equation or one set of field lemmas for every function of the allocator,
so that the proofs about the loops never unfold them.
-/

namespace PicoSched.TaskManager

open BoundedStack

variable {cfg : Config}

/-! ## Stacks -/

section Entries

variable {α : Type} {capacity : ℕ} {message : Message} {value : α}
  {rest : List α} {stack : Stack α capacity} {memory : Memory cfg}

theorem pushEntry_of_room (hroom : stack.entries.length < capacity) :
    pushEntry message value stack memory = (stack.push value, memory) := by
  rw [pushEntry, if_neg]
  rw [Bool.not_eq_true, Stack.isFull_eq_false_iff]
  exact hroom

theorem popEntry_of_cons (hentries : stack.entries = value :: rest) :
    popEntry message stack memory = (some value, stack.pop.2, memory) := by
  have hempty : ¬stack.isEmpty = true := by
    rw [Stack.isEmpty_eq_true_iff, hentries]
    exact List.cons_ne_nil _ _
  rw [popEntry, if_neg hempty, Stack.pop_of_entries_eq_cons hentries]

theorem popEntry_of_nil (hentries : stack.entries = []) :
    popEntry message stack memory =
      (none, stack, memory.log (.printf message)) := by
  rw [popEntry, if_pos ((Stack.isEmpty_eq_true_iff stack).mpr hentries)]

end Entries

@[simp]
theorem entries_pop {α : Type} {capacity : ℕ} (stack : Stack α capacity) :
    stack.pop.2.entries = stack.entries.tail := rfl

/-! ## The least loaded core -/

theorem getMinCore_of_nil {stack : CoreStack cfg}
    (hentries : stack.list.entries = []) (coreList : CorePtr cfg → CoreInfo) :
    getMinCore stack coreList = .error .outOfBounds := by
  rw [getMinCore, hentries]

/-- The scan ends on an element of the list with the least value. -/
theorem scan_spec {κ : Type*} (value : κ → ℚ) (rest : List κ) (first : κ) :
    let least := rest.foldl (fun least next =>
      if value next < value least then next else least) first
    least ∈ first :: rest ∧ ∀ other ∈ first :: rest,
      value least ≤ value other := by
  induction rest generalizing first with
  | nil => simp
  | cons next rest ih =>
      simp only [List.foldl_cons]
      obtain ⟨hmem, hleast⟩ :=
        ih (if value next < value first then next else first)
      have hbest := hleast _ (List.mem_cons_self ..)
      have hrest := fun other hother =>
        hleast other (List.mem_cons_of_mem _ hother)
      constructor
      · rcases List.mem_cons.mp hmem with hchosen | htail
        · rw [hchosen]
          split <;> simp
        · exact List.mem_cons_of_mem _ (List.mem_cons_of_mem _ htail)
      · rw [List.forall_mem_cons, List.forall_mem_cons]
        refine ⟨hbest.trans ?_, hbest.trans ?_, hrest⟩
        · split
          · rename_i hless
            exact hless.le
          · exact le_rfl
        · split
          · exact le_rfl
          · rename_i hless
            exact le_of_not_gt hless

theorem getMinCore_of_ne_nil {stack : CoreStack cfg}
    (hentries : stack.list.entries ≠ []) (coreList : CorePtr cfg → CoreInfo) :
    ∃ core, getMinCore stack coreList = .ok core ∧
      core ∈ stack.list.entries ∧ ∀ other ∈ stack.list.entries,
        (coreList core).utilization ≤ (coreList other).utilization := by
  cases hcons : stack.list.entries with
  | nil => exact absurd hcons hentries
  | cons first rest =>
      obtain ⟨hmem, hleast⟩ :=
        scan_spec (fun core => (coreList core).utilization) rest first
      exact ⟨_, by rw [getMinCore, hcons], hmem, hleast⟩

/-! ## Task creation and assignment -/

section Create

variable (creates : ℕ → Option TaskHandle) (task : TaskPtr cfg)
  (memory : Memory cfg)

@[simp]
theorem taskList_xTaskCreate : (xTaskCreate creates task memory).taskList =
    Function.update memory.taskList task { memory.taskList task with
      myPtr := creates memory.created <|> (memory.taskList task).myPtr } := rfl

@[simp]
theorem coreList_xTaskCreate :
    (xTaskCreate creates task memory).coreList = memory.coreList := rfl

@[simp]
theorem currIdx_xTaskCreate :
    (xTaskCreate creates task memory).currIdx = memory.currIdx := rfl

@[simp]
theorem created_xTaskCreate :
    (xTaskCreate creates task memory).created = memory.created + 1 := rfl

@[simp]
theorem assigned_xTaskCreate :
    (xTaskCreate creates task memory).assigned = memory.assigned := rfl

@[simp]
theorem splits_xTaskCreate :
    (xTaskCreate creates task memory).splits = memory.splits := rfl

@[simp]
theorem printed_xTaskCreate :
    (xTaskCreate creates task memory).printed = memory.printed := rfl

end Create

section Assign

variable (task : TaskPtr cfg) (core : CorePtr cfg) (memory : Memory cfg)

@[simp]
theorem taskList_assignTask :
    (assignTask task core memory).taskList = memory.taskList := rfl

@[simp]
theorem coreList_assignTask : (assignTask task core memory).coreList =
    Function.update memory.coreList core { memory.coreList core with
      utilization := (memory.coreList core).utilization +
        (memory.taskList task).utilization } := rfl

@[simp]
theorem currIdx_assignTask :
    (assignTask task core memory).currIdx = memory.currIdx := rfl

@[simp]
theorem created_assignTask :
    (assignTask task core memory).created = memory.created := rfl

@[simp]
theorem assigned_assignTask : (assignTask task core memory).assigned =
    (task, core) :: memory.assigned := rfl

@[simp]
theorem splits_assignTask :
    (assignTask task core memory).splits = memory.splits := rfl

@[simp]
theorem printed_assignTask :
    (assignTask task core memory).printed = memory.printed := rfl

end Assign

/-! ## Splits -/

/-- The record a split leaves in the place of the piece it cuts. -/
def bodyInfo (room : ℚ) (successor : Option TaskHandle) (origin : TaskInfo) :
    TaskInfo :=
  { origin with
    utilization := room
    runtime := toUint16 (room * origin.period)
    splittedPtr := successor }

/-- The record a split writes into the new slot. -/
def tailInfo (room : ℚ) (handle : Option TaskHandle) (origin slot : TaskInfo) :
    TaskInfo :=
  { slot with
    taskName := origin.taskName
    runtime := toUint16 (origin.runtime - toUint16 (room * origin.period))
    period := origin.period
    priority := origin.priority
    subnum := (origin.subnum + 1) % 2 ^ 8
    myPtr := handle <|> slot.myPtr
    dependency := true
    utilization := origin.utilization - room }

section Split

variable (creates : ℕ → Option TaskHandle) (task tail : TaskPtr cfg)
  (core : CorePtr cfg) (room : ℚ) (memory : Memory cfg)

/-- The memory after a split whose body gets the load `room`. -/
def splitMemory : Memory cfg :=
  let origin := memory.taskList task
  let body := tailInfo room (creates memory.created) origin
    (memory.taskList tail)
  { memory with
    taskList := Function.update (Function.update memory.taskList tail body)
      task (bodyInfo room body.myPtr origin)
    created := memory.created + 1
    calls := .xTaskCreate tail (memory.taskList tail).taskCode
        origin.taskName origin.priority (creates memory.created) ::
      .taskSplit task tail core :: memory.calls }

theorem taskSplit_eq (hne : tail ≠ task) (coreStack : CoreStack cfg)
    (stack : TaskStack cfg) :
    taskSplit creates task tail core coreStack stack memory =
      pushTask tail stack (splitMemory creates task tail core
        (coreStack.utilizationBound - (memory.coreList core).utilization)
        memory) := by
  have horigin : ∀ (info : TaskInfo) (memory : Memory cfg),
      (memory.setTask tail info).taskList task = memory.taskList task := by
    intro info memory
    rw [Memory.taskList_setTask, Function.update_of_ne hne.symm]
  rw [taskSplit]
  apply congrArg (pushTask tail stack)
  apply Memory.ext
  · funext slot
    by_cases htask : slot = task
    · subst htask
      simp only [horigin]
      simp [hne, hne.symm, bodyInfo, tailInfo, splitMemory]
    · by_cases htail : slot = tail
      · subst htail
        simp [hne, hne.symm, bodyInfo, tailInfo, splitMemory]
      · simp [htask, htail, splitMemory]
  · rfl
  · rfl
  · rfl
  · simp [hne, hne.symm, Memory.setTask, Memory.log, xTaskCreate, splitMemory]

@[simp]
theorem taskList_splitMemory_body :
    (splitMemory creates task tail core room memory).taskList task =
      bodyInfo room (creates memory.created <|> (memory.taskList tail).myPtr)
        (memory.taskList task) := by
  simp [splitMemory, tailInfo]

theorem taskList_splitMemory_tail (hne : tail ≠ task) :
    (splitMemory creates task tail core room memory).taskList tail =
      tailInfo room (creates memory.created) (memory.taskList task)
        (memory.taskList tail) := by
  simp [splitMemory, hne]

theorem taskList_splitMemory_of_ne {slot : TaskPtr cfg} (htask : slot ≠ task)
    (htail : slot ≠ tail) :
    (splitMemory creates task tail core room memory).taskList slot =
      memory.taskList slot := by
  simp [splitMemory, htask, htail]

@[simp]
theorem coreList_splitMemory :
    (splitMemory creates task tail core room memory).coreList =
      memory.coreList := rfl

@[simp]
theorem currIdx_splitMemory :
    (splitMemory creates task tail core room memory).currIdx =
      memory.currIdx := rfl

@[simp]
theorem created_splitMemory :
    (splitMemory creates task tail core room memory).created =
      memory.created + 1 := rfl

@[simp]
theorem assigned_splitMemory :
    (splitMemory creates task tail core room memory).assigned =
      memory.assigned := rfl

@[simp]
theorem splits_splitMemory :
    (splitMemory creates task tail core room memory).splits =
      (task, tail) :: memory.splits := rfl

@[simp]
theorem printed_splitMemory :
    (splitMemory creates task tail core room memory).printed =
      memory.printed := rfl

end Split

end PicoSched.TaskManager

namespace PicoSched.Main

open BoundedStack TaskManager

variable {cfg : Config} (creates : ℕ → Option TaskHandle) {task : TaskPtr cfg}
  {core : CorePtr cfg} {coreManager : CoreStack cfg} {stack : TaskStack cfg}
  {memory : Memory cfg}

/-! ## The end of an iteration -/

theorem assignOrSplit_of_fits
    (hfits : (memory.coreList core).utilization +
      (memory.taskList task).utilization ≤ cfg.utilizationBound) :
    assignOrSplit creates task core coreManager stack memory =
      .ok (stack, assignTask task core memory) := by
  rw [assignOrSplit, if_pos hfits]

theorem assignOrSplit_of_no_slot
    (hover : cfg.utilizationBound < (memory.coreList core).utilization +
      (memory.taskList task).utilization)
    (hslot : ¬memory.currIdx < cfg.maxNumTasks) :
    assignOrSplit creates task core coreManager stack memory =
      .error .nullTask := by
  rw [assignOrSplit, if_neg (not_le.mpr hover)]
  simp [newTask, hslot]

theorem assignOrSplit_of_slot
    (hover : cfg.utilizationBound < (memory.coreList core).utilization +
      (memory.taskList task).utilization)
    (hslot : memory.currIdx < cfg.maxNumTasks)
    (hne : (⟨memory.currIdx, hslot⟩ : TaskPtr cfg) ≠ task)
    (hroom : stack.entries.length < cfg.maxNumTasks)
    (hbound : coreManager.utilizationBound = cfg.utilizationBound) :
    assignOrSplit creates task core coreManager stack memory =
      .ok (stack.push ⟨memory.currIdx, hslot⟩,
        assignTask task core (splitMemory creates task ⟨memory.currIdx, hslot⟩
          core (cfg.utilizationBound - (memory.coreList core).utilization)
          { memory with currIdx := memory.currIdx + 1 })) := by
  rw [assignOrSplit, if_neg (not_le.mpr hover)]
  simp only [newTask, hslot, dite_true]
  rw [taskSplit_eq creates task _ core _ hne, hbound, pushTask,
    pushEntry_of_room hroom]

end PicoSched.Main
