import PicoSched.Lib.BoundedStack
import Mathlib.Data.Rat.Floor

/-!
# The data of the allocator

The records of `task_manager.h`, the tables `main.c` initialises and the state
the allocation loops work on.  `float` utilizations are exact rationals,
pointers into `task_list` and `core_list` are indices below the array sizes,
and a NULL handle is `none`.
-/

namespace PicoSched.TaskManager

open BoundedStack

/-- `NUM_OF_TASK`, `configNUMBER_OF_CORES` and the number `get_Utilization`
returns for them. -/
structure Config where
  numOfTask : ℕ
  numberOfCores : ℕ
  tasks_pos : 0 < numOfTask
  cores_pos : 0 < numberOfCores
  utilizationBound : ℚ
  bound_pos : 0 < utilizationBound

/-- `NUM_OF_TASK + configNUMBER_OF_CORES -1`. -/
def Config.maxNumTasks (cfg : Config) : ℕ :=
  cfg.numOfTask + cfg.numberOfCores - 1

theorem Config.numOfTask_le_maxNumTasks (cfg : Config) :
    cfg.numOfTask ≤ cfg.maxNumTasks := by
  have hcores := cfg.cores_pos
  simp only [maxNumTasks]
  omega

abbrev TaskPtr (cfg : Config) := Fin cfg.maxNumTasks
abbrev CorePtr (cfg : Config) := Fin cfg.numberOfCores
abbrev TaskHandle := ℕ

/-- `&task_list[index]` for one of the declared tasks. -/
def Config.original (cfg : Config) (index : Fin cfg.numOfTask) : TaskPtr cfg :=
  index.castLE cfg.numOfTask_le_maxNumTasks

@[simp]
theorem Config.val_original (cfg : Config) (index : Fin cfg.numOfTask) :
    (cfg.original index).val = index.val := rfl

/-- `task_info`. -/
structure TaskInfo where
  taskCode : ℕ
  taskName : String
  runtime : ℕ
  period : ℕ
  priority : ℕ
  subnum : ℕ
  myPtr : Option TaskHandle
  splittedPtr : Option TaskHandle
  dependency : Bool
  heavy : Bool
  utilization : ℚ
  deriving DecidableEq

/-- `core_info`. -/
structure CoreInfo where
  coreNum : ℕ
  utilization : ℚ
  preAssigned : Bool
  deriving DecidableEq

/-- `task_stack`. -/
abbrev TaskStack (cfg : Config) := Stack (TaskPtr cfg) cfg.maxNumTasks

/-- `core_stack`. -/
structure CoreStack (cfg : Config) where
  list : Stack (CorePtr cfg) cfg.numberOfCores
  utilizationBound : ℚ

/-- The initialiser of `task_list`: a row for every declared task, then the
extra rows that splits fill in.  The columns after the subnumber are the same
constants in every row, and the numbers fit their C types. -/
structure TaskTable (cfg : Config) where
  entry : TaskPtr cfg → TaskInfo
  runtime_lt : ∀ task, (entry task).runtime < 2 ^ 16
  period_lt : ∀ task, (entry task).period < 2 ^ 32
  priority_lt : ∀ task, (entry task).priority < 2 ^ 8
  subnum_eq : ∀ task, (entry task).subnum = 1
  myPtr_eq : ∀ task, (entry task).myPtr = none
  splittedPtr_eq : ∀ task, (entry task).splittedPtr = none
  dependency_eq : ∀ task, (entry task).dependency = false
  heavy_eq : ∀ task, (entry task).heavy = false

/-- The row of a declared task. -/
def TaskTable.task {cfg : Config} (table : TaskTable cfg)
    (index : Fin cfg.numOfTask) : TaskInfo :=
  table.entry (cfg.original index)

/-- The initialiser of `core_list`: the affinity mask of the core, no load. -/
def initialCoreList (cfg : Config) (core : CorePtr cfg) : CoreInfo :=
  ⟨1 <<< core.val, 0, false⟩

/-- The lines the allocator prints when something is wrong or full. -/
inductive Message where
  | taskStackUnderflow
  | taskStackOverflow
  | heavyButAffordable (number : ℕ)
  | noMoreNewTask
  | coreStackUnderflow
  | coreStackOverflow
  | allProcessorsFullyUtilized
  deriving DecidableEq

/-- What the allocator does outside its own data: kernel calls and printed
lines, together with the calls of `Assign_task` and `Task_split` that make
them. -/
inductive Call (cfg : Config) where
  | xTaskCreate (task : TaskPtr cfg) (taskCode : ℕ) (taskName : String)
      (priority : ℕ) (result : Option TaskHandle)
  | assignTask (task : TaskPtr cfg) (core : CorePtr cfg)
      (handle : Option TaskHandle) (coreNum : ℕ)
  | taskSplit (body tail : TaskPtr cfg) (core : CorePtr cfg)
  | printf (message : Message)
  deriving DecidableEq

/-- The memory the allocator works on.  `created` counts the calls of
`xTaskCreate`; `calls` has the latest call first. -/
@[ext]
structure Memory (cfg : Config) where
  taskList : TaskPtr cfg → TaskInfo
  coreList : CorePtr cfg → CoreInfo
  currIdx : ℕ
  created : ℕ
  calls : List (Call cfg)

/-- What stops the program: a NULL `task_info*` or `core_info*` is
dereferenced, or a stack cell outside the array is read. -/
inductive Fault where
  | nullTask
  | nullCore
  | outOfBounds
  deriving DecidableEq

namespace Memory

variable {cfg : Config}

def setTask (task : TaskPtr cfg) (info : TaskInfo) (memory : Memory cfg) :
    Memory cfg :=
  { memory with taskList := Function.update memory.taskList task info }

def setCore (core : CorePtr cfg) (info : CoreInfo) (memory : Memory cfg) :
    Memory cfg :=
  { memory with coreList := Function.update memory.coreList core info }

def log (call : Call cfg) (memory : Memory cfg) : Memory cfg :=
  { memory with calls := call :: memory.calls }

/-- The pieces given to `Assign_task` with the cores they were given, the
latest first. -/
def assigned (memory : Memory cfg) : List (TaskPtr cfg × CorePtr cfg) :=
  memory.calls.filterMap fun call =>
    match call with
    | .assignTask task core _ _ => some (task, core)
    | _ => none

/-- The calls of `vTaskCoreAffinitySet`, the latest first. -/
def affinityCalls (memory : Memory cfg) : List (Option TaskHandle × ℕ) :=
  memory.calls.filterMap fun call =>
    match call with
    | .assignTask _ _ handle coreNum => some (handle, coreNum)
    | _ => none

/-- The calls of `Task_split` as pairs of body and tail, the latest first. -/
def splits (memory : Memory cfg) : List (TaskPtr cfg × TaskPtr cfg) :=
  memory.calls.filterMap fun call =>
    match call with
    | .taskSplit body tail _ => some (body, tail)
    | _ => none

def printed (memory : Memory cfg) : List Message :=
  memory.calls.filterMap fun call =>
    match call with
    | .printf message => some message
    | _ => none

@[simp]
theorem assigned_log (call : Call cfg) (memory : Memory cfg) :
    (memory.log call).assigned =
      (match call with
        | .assignTask task core _ _ => [(task, core)]
        | _ => []) ++ memory.assigned := by
  cases call <;> rfl

@[simp]
theorem affinityCalls_log (call : Call cfg) (memory : Memory cfg) :
    (memory.log call).affinityCalls =
      (match call with
        | .assignTask _ _ handle coreNum => [(handle, coreNum)]
        | _ => []) ++ memory.affinityCalls := by
  cases call <;> rfl

@[simp]
theorem splits_log (call : Call cfg) (memory : Memory cfg) :
    (memory.log call).splits =
      (match call with
        | .taskSplit body tail _ => [(body, tail)]
        | _ => []) ++ memory.splits := by
  cases call <;> rfl

@[simp]
theorem printed_log (call : Call cfg) (memory : Memory cfg) :
    (memory.log call).printed =
      (match call with
        | .printf message => [message]
        | _ => []) ++ memory.printed := by
  cases call <;> rfl

section Frames

variable (call : Call cfg) (task : TaskPtr cfg) (core : CorePtr cfg)
  (info : TaskInfo) (coreInfo : CoreInfo) (memory : Memory cfg)

@[simp]
theorem taskList_log : (memory.log call).taskList = memory.taskList := rfl

@[simp]
theorem coreList_log : (memory.log call).coreList = memory.coreList := rfl

@[simp]
theorem currIdx_log : (memory.log call).currIdx = memory.currIdx := rfl

@[simp]
theorem created_log : (memory.log call).created = memory.created := rfl

@[simp]
theorem taskList_setTask : (memory.setTask task info).taskList =
    Function.update memory.taskList task info := rfl

@[simp]
theorem coreList_setTask :
    (memory.setTask task info).coreList = memory.coreList := rfl

@[simp]
theorem currIdx_setTask :
    (memory.setTask task info).currIdx = memory.currIdx := rfl

@[simp]
theorem created_setTask :
    (memory.setTask task info).created = memory.created := rfl

@[simp]
theorem calls_setTask : (memory.setTask task info).calls = memory.calls := rfl

@[simp]
theorem assigned_setTask :
    (memory.setTask task info).assigned = memory.assigned := rfl

@[simp]
theorem affinityCalls_setTask :
    (memory.setTask task info).affinityCalls = memory.affinityCalls := rfl

@[simp]
theorem splits_setTask :
    (memory.setTask task info).splits = memory.splits := rfl

@[simp]
theorem printed_setTask :
    (memory.setTask task info).printed = memory.printed := rfl

@[simp]
theorem taskList_setCore :
    (memory.setCore core coreInfo).taskList = memory.taskList := rfl

@[simp]
theorem coreList_setCore : (memory.setCore core coreInfo).coreList =
    Function.update memory.coreList core coreInfo := rfl

@[simp]
theorem currIdx_setCore :
    (memory.setCore core coreInfo).currIdx = memory.currIdx := rfl

@[simp]
theorem created_setCore :
    (memory.setCore core coreInfo).created = memory.created := rfl

@[simp]
theorem calls_setCore :
    (memory.setCore core coreInfo).calls = memory.calls := rfl

@[simp]
theorem assigned_setCore :
    (memory.setCore core coreInfo).assigned = memory.assigned := rfl

@[simp]
theorem affinityCalls_setCore :
    (memory.setCore core coreInfo).affinityCalls = memory.affinityCalls := rfl

@[simp]
theorem splits_setCore :
    (memory.setCore core coreInfo).splits = memory.splits := rfl

@[simp]
theorem printed_setCore :
    (memory.setCore core coreInfo).printed = memory.printed := rfl

end Frames

end Memory

end PicoSched.TaskManager
