import PicoSched.Model.TaskManager

/-!
# The allocation in `main`

`main` before the scheduler starts: the stacks are initialised, the pre-assign
loop and the normal-assign loop of the SPA2 branch run, or the one loop of the
`#else` branch.
-/

namespace PicoSched.Main

open BoundedStack Loop TaskManager

variable {cfg : Config}

/-- The globals of `main.c` the allocation uses. -/
structure State (cfg : Config) where
  memory : Memory cfg
  taskManager : TaskStack cfg
  uq : TaskStack cfg
  coreManager : CoreStack cfg
  preAssignedCore : CoreStack cfg

/-- The memory as it is initialised; `curr_idx` is set after `init_task`. -/
def initialMemory (table : TaskTable cfg) : Memory cfg where
  taskList := table.entry
  coreList := initialCoreList cfg
  currIdx := cfg.numOfTask
  created := 0
  calls := []

/-- `main` up to the allocation loops. -/
def setup (creates : ℕ → Option TaskHandle) (table : TaskTable cfg) :
    Except Fault (State cfg) :=
  match initCore ⟨Stack.empty, 0⟩ (initialMemory table) with
  | .error fault => .error fault
  | .ok (coreManager, memory) =>
      match initTask creates memory with
      | .error fault => .error fault
      | .ok (taskManager, memory) =>
          .ok {
            memory
            taskManager
            uq := Stack.empty
            coreManager :=
              { coreManager with utilizationBound := cfg.utilizationBound }
            preAssignedCore := initCoreStack ⟨Stack.empty, cfg.utilizationBound⟩ }

/-! ## The SPA2 branch -/

/-- The condition `T->Heavy && simple_test(...)` of the pre-assign loop. -/
def preAssignTest (index : Fin cfg.numOfTask) (task : TaskPtr cfg)
    (state : State cfg) : Except Fault (Bool × Memory cfg) :=
  if (state.memory.taskList task).heavy then
    simpleTest index state.coreManager state.taskManager state.memory
  else .ok (false, state.memory)

def preAssignStep (index : Fin cfg.numOfTask) (state : State cfg) :
    Except Fault (State cfg) :=
  match state.taskManager.cell index with
  | none => .error .outOfBounds
  | some task =>
      match preAssignTest index task state with
      | .error fault => .error fault
      | .ok (true, memory) =>
          match popCore state.coreManager memory with
          | (none, _, _) => .error .nullCore
          | (some core, coreManager, memory) =>
              let memory := assignTask task core memory
              let memory := memory.setCore core
                { memory.coreList core with preAssigned := true }
              let pushed := pushCore core state.preAssignedCore memory
              .ok { state with
                memory := pushed.2
                coreManager
                preAssignedCore := pushed.1 }
      | .ok (false, memory) =>
          let pushed := pushTask task state.uq memory
          .ok { state with memory := pushed.2, uq := pushed.1 }

def preAssign (state : State cfg) : Except Fault (State cfg) :=
  forAll preAssignStep state

/-- The end of an iteration of both normal-assign loops: the piece fits on
the core, or it is split and its tail goes back on the stack. -/
def assignOrSplit (creates : ℕ → Option TaskHandle) (task : TaskPtr cfg)
    (core : CorePtr cfg) (coreManager : CoreStack cfg) (stack : TaskStack cfg)
    (memory : Memory cfg) : Except Fault (TaskStack cfg × Memory cfg) :=
  if (memory.coreList core).utilization + (memory.taskList task).utilization ≤
      cfg.utilizationBound then
    .ok (stack, assignTask task core memory)
  else
    match newTask memory with
    | (none, _) => .error .nullTask
    | (some tail, memory) =>
        let result := taskSplit creates task tail core coreManager stack memory
        .ok (result.1, assignTask task core result.2)

/-- The core an iteration of the SPA2 loop works on.  `none` is the exit that
prints `ALL PROCESSORS FULLY UTILIZED`. -/
def selectCore (minCore : CorePtr cfg) (preAssignedCore : CoreStack cfg)
    (memory : Memory cfg) :
    Except Fault (Option (CorePtr cfg) × CoreStack cfg × Memory cfg) :=
  if cfg.utilizationBound ≤ (memory.coreList minCore).utilization then
    match popCore preAssignedCore memory with
    | (none, _, _) => .error .nullCore
    | (some core, preAssignedCore, memory) =>
        if cfg.utilizationBound ≤ (memory.coreList core).utilization then
          .ok (none, preAssignedCore,
            memory.log (.printf .allProcessorsFullyUtilized))
        else .ok (some core, preAssignedCore, memory)
  else .ok (some minCore, preAssignedCore, memory)

def normalAssignBody (creates : ℕ → Option TaskHandle) (state : State cfg) :
    Except Fault (Flow (State cfg)) :=
  match getMinCore state.coreManager state.memory.coreList with
  | .error fault => .error fault
  | .ok minCore =>
      match popTask state.uq state.memory with
      | (none, _, _) => .error .nullTask
      | (some task, uq, memory) =>
          match selectCore minCore state.preAssignedCore memory with
          | .error fault => .error fault
          | .ok (none, preAssignedCore, memory) =>
              .ok (.leave { state with memory, uq, preAssignedCore })
          | .ok (some core, preAssignedCore, memory) =>
              match assignOrSplit creates task core state.coreManager uq
                  memory with
              | .error fault => .error fault
              | .ok (uq, memory) =>
                  if (memory.coreList core).preAssigned then
                    let pushed := pushCore core preAssignedCore memory
                    .ok (.next { state with
                      memory := pushed.2, uq, preAssignedCore := pushed.1 })
                  else
                    .ok (.next { state with memory, uq, preAssignedCore })

/-- The `while` loop over `UQ`. -/
def normalAssign (creates : ℕ → Option TaskHandle) :
    While (State cfg) Fault where
  guard state := !state.uq.isEmpty
  body := normalAssignBody creates

/-! ## The `#else` branch -/

def elseAssignBody (creates : ℕ → Option TaskHandle) (state : State cfg) :
    Except Fault (Flow (State cfg)) :=
  match getMinCore state.coreManager state.memory.coreList with
  | .error fault => .error fault
  | .ok minCore =>
      match popTask state.taskManager state.memory with
      | (none, _, _) => .error .nullTask
      | (some task, taskManager, memory) =>
          if cfg.utilizationBound ≤ (memory.coreList minCore).utilization then
            .ok (.leave { state with
              memory := memory.log (.printf .allProcessorsFullyUtilized)
              taskManager })
          else
            match assignOrSplit creates task minCore state.coreManager
                taskManager memory with
            | .error fault => .error fault
            | .ok (taskManager, memory) =>
                .ok (.next { state with memory, taskManager })

/-- The `while` loop over `task_manager`. -/
def elseAssign (creates : ℕ → Option TaskHandle) :
    While (State cfg) Fault where
  guard state := !state.taskManager.isEmpty
  body := elseAssignBody creates

/-! ## Whole runs -/

/-- A run of the SPA2 branch.  The fuel covers every iteration: each one takes
a piece off the stack or uses up an extra slot. -/
def spa2 (creates : ℕ → Option TaskHandle) (table : TaskTable cfg) :
    Outcome (State cfg) Fault :=
  match setup creates table with
  | .error fault => .fault fault
  | .ok state =>
      match preAssign state with
      | .error fault => .fault fault
      | .ok state => (normalAssign creates).run cfg.maxNumTasks state

/-- A run of the `#else` branch. -/
def elseBranch (creates : ℕ → Option TaskHandle) (table : TaskTable cfg) :
    Outcome (State cfg) Fault :=
  match setup creates table with
  | .error fault => .fault fault
  | .ok state => (elseAssign creates).run cfg.maxNumTasks state

/-- The states at the head of the normal-assign loop of the SPA2 branch. -/
def Spa2Head (creates : ℕ → Option TaskHandle) (table : TaskTable cfg)
    (state : State cfg) : Prop :=
  ∃ ready start, setup creates table = .ok ready ∧
    preAssign ready = .ok start ∧ (normalAssign creates).Head start state

/-- The states in which the SPA2 loop is left by its `break`. -/
def Spa2Exit (creates : ℕ → Option TaskHandle) (table : TaskTable cfg)
    (state : State cfg) : Prop :=
  ∃ ready start, setup creates table = .ok ready ∧
    preAssign ready = .ok start ∧ (normalAssign creates).Exit start state

/-- The states at the head of the loop of the `#else` branch. -/
def ElseHead (creates : ℕ → Option TaskHandle) (table : TaskTable cfg)
    (state : State cfg) : Prop :=
  ∃ ready, setup creates table = .ok ready ∧
    (elseAssign creates).Head ready state

end PicoSched.Main
