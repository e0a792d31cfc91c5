import PicoSched.Allocation.Registration
import PicoSched.Allocation.Variants
import PicoSched.Model.TaskList
import PicoSched.Runtime.Dispatch

/-!
# The priorities the allocator declares

The allocator reasons with the declared priorities of the pieces and the cores
it assigns them to, the kernel with the priorities and masks of its control
blocks.  Both order the pieces of a core the same way as long as the cut at
`configMAX_PRIORITIES` leaves that order alone.
-/

namespace PicoSched.Kernel

open Loop Main Refinement TaskManager Transition

variable {cfg : Config} {creates : ℕ → Option TaskHandle} {table : TaskTable cfg}
  {others : TaskHandle → Tcb} {memory : Memory cfg}
  {setup : Setup cfg.numberOfCores} {state : State cfg.numberOfCores}
  {core : CorePtr cfg} {task : TaskPtr cfg}

/-- A ready piece that has been assigned to the core. -/
def ReadyOn (memory : Memory cfg) (setup : Setup cfg.numberOfCores)
    (state : State cfg.numberOfCores) (core : CorePtr cfg)
    (task : TaskPtr cfg) : Prop :=
  memory.coreOf task = some core ∧
    ∃ handle, (memory.taskList task).myPtr = some handle ∧
      state.Ready setup handle

/-- If a piece runs on the core, it is one of the highest declared priority
among the ready pieces of the core; if an idle task runs there, the ready
pieces of the core have the lowest priority there is. -/
def RunsHighestDeclared (memory : Memory cfg) (setup : Setup cfg.numberOfCores)
    (state : State cfg.numberOfCores) (core : CorePtr cfg) : Prop :=
  (∀ running, (memory.taskList running).myPtr = some (state.current core) →
    ReadyOn memory setup state core running ∧
      ∀ task, ReadyOn memory setup state core task →
        (memory.taskList task).priority ≤
          (memory.taskList running).priority) ∧
  ∀ other, state.current core = setup.idle other →
    ∀ task, ReadyOn memory setup state core task →
      (memory.taskList task).priority = 0

/-- Every created piece has been given to `Assign_task`. -/
def AllAssigned (memory : Memory cfg) : Prop :=
  ∀ task, (memory.taskList task).myPtr ≠ none → memory.coreOf task ≠ none

/-- Of two pieces on one core, the one of lower priority is not cut to the
largest priority of the kernel. -/
def OrderKept (memory : Memory cfg) : Prop :=
  ∀ first second, memory.coreOf first ≠ none →
    memory.coreOf first = memory.coreOf second →
      (memory.taskList first).priority < (memory.taskList second).priority →
        (memory.taskList first).priority < configMaxPriorities - 1

theorem tcb_of_myPtr (hdistinct : DistinctHandles creates)
    (hbuilt : Built creates table memory)
    (hsetup : setup.tcb = tcbAfter others memory.calls) {handle : TaskHandle}
    (hhandle : (memory.taskList task).myPtr = some handle) :
    setup.tcb handle = memory.pieceTcb task := by
  have hreg := hbuilt.registered hdistinct others
  have htask : task.val < memory.currIdx := by
    by_contra hle
    rw [hreg.fresh task (not_lt.mp hle)] at hhandle
    cases hhandle
  rw [hreg.handle task htask] at hhandle
  rw [hsetup, hreg.tcb task htask handle hhandle]

/-- The mask of an assigned piece has the bit of its core only. -/
theorem pinned_of_coreOf {handle : TaskHandle}
    (htcb : setup.tcb handle = memory.pieceTcb task)
    (hcore : memory.coreOf task = some core) : setup.Pinned handle core := by
  intro other
  rw [Setup.allows, htcb, Memory.pieceTcb, hcore]
  dsimp only
  rw [Nat.one_shiftLeft, Nat.testBit_two_pow, decide_eq_true_iff, Fin.ext_iff]
  exact eq_comm

/-- The kernel keeps the order of two pieces of one core. -/
theorem declared_le_of_kernel_le (horder : OrderKept memory)
    {first second : TaskPtr cfg} (hassigned : memory.coreOf second ≠ none)
    (hcore : memory.coreOf first = memory.coreOf second)
    (hle : (memory.pieceTcb first).uxPriority ≤
      (memory.pieceTcb second).uxPriority) :
    (memory.taskList first).priority ≤ (memory.taskList second).priority := by
  by_contra hless
  have hcut := horder second first hassigned hcore.symm (not_le.mp hless)
  simp only [Memory.pieceTcb, prvInitialiseNewTask] at hle
  split at hle <;> split at hle <;> omega

/-- In every state the kernel reaches with the tasks that the allocation
created and pinned, a core that has served its yields runs a ready piece of the
highest declared priority, when the declared order survives the cut. -/
theorem runsHighestDeclared_of_reachable (hdistinct : DistinctHandles creates)
    (hbuilt : Built creates table memory) (hassigned : AllAssigned memory)
    (horder : OrderKept memory) (others : TaskHandle → Tcb)
    (setup : Setup cfg.numberOfCores)
    (hsetup : setup.tcb = tcbAfter others memory.calls)
    (state : State cfg.numberOfCores)
    (hreach : (machine setup).Reachable state) (core : CorePtr cfg)
    (hserved : ¬state.pending core) :
    RunsHighestDeclared memory setup state core := by
  obtain ⟨hwell, hdispatched⟩ := dispatched_of_reachable hreach
  obtain ⟨hready, hhighest⟩ := hdispatched core hserved
  have hpiece : ∀ task, ReadyOn memory setup state core task →
      (memory.pieceTcb task).uxPriority ≤
        (setup.tcb (state.current core)).uxPriority := by
    rintro task ⟨hcore, handle, hhandle, hwaits⟩
    have htcb := tcb_of_myPtr hdistinct hbuilt hsetup hhandle
    have hle := hhighest handle hwaits (pinned_of_coreOf htcb hcore)
    rwa [htcb] at hle
  constructor
  · intro running hrunning
    have htcb := tcb_of_myPtr hdistinct hbuilt hsetup hrunning
    have hsome : memory.coreOf running ≠ none := by
      apply hassigned running
      rw [hrunning]
      exact Option.some_ne_none _
    obtain ⟨given, hgiven⟩ := Option.ne_none_iff_exists'.mp hsome
    -- the mask of the running task allows the core it runs on
    have hsame : core = given :=
      (pinned_of_coreOf htcb hgiven core).mp (hwell.allowed core)
    subst hsame
    refine ⟨⟨hgiven, _, hrunning, hready⟩, fun task htask => ?_⟩
    apply declared_le_of_kernel_le horder hsome
    · rw [htask.1, hgiven]
    · rw [← htcb]
      exact hpiece task htask
  · intro other hidle task htask
    have hle := hpiece task htask
    rw [hidle, setup.idle_priority, Nat.le_zero] at hle
    simp only [Memory.pieceTcb, prvInitialiseNewTask] at hle
    split at hle
    · cases hle
    · exact hle

/-! ## Two task lists -/

/-- The tasks the program and the scheduler create besides the pieces: the
monitor, the timer task and the idle tasks. -/
def otherTcb (handle : TaskHandle) : Tcb :=
  if handle = 20 then prvInitialiseNewTask 10
  else if handle = 21 then prvInitialiseNewTask (configMaxPriorities - 1)
  else { prvInitialiseNewTask 0 with isIdle := true }

instance : NeZero crowdedConfig.maxNumTasks := ⟨by decide⟩

instance : NeZero crowdedConfig.numberOfCores := ⟨by decide⟩

/-- The calls of the allocation for three tasks of low priorities. -/
def lightCalls : List (Call crowdedConfig) := [
  .assignTask 3 0 (some 3) 1,
  .assignTask 0 1 (some 0) 2,
  .xTaskCreate 3 3 "TASK 0" 3 (some 3),
  .taskSplit 0 3 1,
  .assignTask 1 0 (some 1) 1,
  .assignTask 2 1 (some 2) 2,
  .xTaskCreate 2 2 "TASK 2" 1 (some 2),
  .xTaskCreate 1 1 "TASK 1" 2 (some 1),
  .xTaskCreate 0 0 "TASK 0" 3 (some 0)]

def lightSetup : Setup 2 where
  created := [20, 0, 1, 2, 3, 22, 23, 21]
  tcb := tcbAfter otherTcb lightCalls
  idle := ![22, 23]
  idle_injective := by decide
  idle_created := by decide
  idle_priority := by decide
  idle_isIdle := by decide
  idle_mask := by decide

/-- The monitor and the timer task block, then both cores are in a piece. -/
def lightActions : List (Action 2) :=
  [.switch 0, .block 0, .switch 0, .block 0, .switch 0, .switch 1]

/-- The body of the first task runs while the last task waits on its core. -/
theorem lightTable_runsHighestDeclared :
    ∃ final, ∃ state : State crowdedConfig.numberOfCores,
      spa2 some lightTable = .done final ∧
        (machine lightSetup).Reachable state ∧ state.current 1 = 0 ∧
        2 ∈ state.ready 1 ∧
        ∀ core, RunsHighestDeclared final.memory lightSetup state core := by
  have hfinal : (spa2 some lightTable).final.map (fun final =>
      decide (final.memory.calls = lightCalls ∧
        (∀ task, final.memory.coreOf task ≠ none) ∧
        ∀ first second, final.memory.coreOf first ≠ none →
          final.memory.coreOf first = final.memory.coreOf second →
            (final.memory.taskList first).priority <
                (final.memory.taskList second).priority →
              (final.memory.taskList first).priority <
                configMaxPriorities - 1)) = some true := by
    decide +kernel
  obtain ⟨final, hrun, hmemory⟩ := Option.map_eq_some_iff.mp hfinal
  obtain ⟨hcalls, hassigned, horder⟩ := of_decide_eq_true hmemory
  have hdone := Outcome.eq_done_of_final hrun
  have hexec : ((machine lightSetup).exec (fun _ _ => True) lightActions
      (machine lightSetup).start).any (fun state =>
        decide (state.current 1 = 0 ∧ 2 ∈ state.ready 1 ∧
          ∀ core, state.yieldPending core = false ∧
            state.runState (state.current core) ≠ .scheduledToYield)) = true := by
    decide +kernel
  obtain ⟨state, hreach, hstate⟩ :=
    Machine.exists_reaches_of_exec lightActions _ hexec
  obtain ⟨hcurrent, hready, hserved⟩ := of_decide_eq_true hstate
  refine ⟨final, state, hdone, hreach, hcurrent, hready, fun core => ?_⟩
  apply runsHighestDeclared_of_reachable
    (fun _ _ _ hfirst hsecond => by cases hfirst; cases hsecond; rfl)
    (built_of_spa2Head (spa2Head_of_done hdone).1)
    (fun task _ => hassigned task) horder otherTcb lightSetup
    (by rw [hcalls]; rfl) state hreach core
  rintro (hflag | hyield)
  · exact Bool.false_ne_true ((hserved core).1.symm.trans hflag)
  · exact (hserved core).2 hyield

instance : NeZero mainConfig.maxNumTasks := ⟨by decide⟩

instance : NeZero mainConfig.numberOfCores := ⟨by decide⟩

/-- The calls of the allocation for the task list of the repository. -/
def mainCalls : List (Call mainConfig) := [
  .assignTask 7 1 (some 7) 2,
  .assignTask 0 0 (some 0) 1,
  .xTaskCreate 7 7 "TASK 0" 7 (some 7),
  .taskSplit 0 7 0,
  .assignTask 1 0 (some 1) 1,
  .assignTask 2 0 (some 2) 1,
  .assignTask 3 0 (some 3) 1,
  .assignTask 5 0 (some 5) 1,
  .assignTask 6 0 (some 6) 1,
  .assignTask 4 1 (some 4) 2,
  .xTaskCreate 6 6 "TASK 6" 1 (some 6),
  .xTaskCreate 5 5 "TASK 5" 2 (some 5),
  .xTaskCreate 4 4 "TASK 4" 3 (some 4),
  .xTaskCreate 3 3 "TASK 3" 4 (some 3),
  .xTaskCreate 2 2 "TASK 2" 5 (some 2),
  .xTaskCreate 1 1 "TASK 1" 6 (some 1),
  .xTaskCreate 0 0 "TASK 0" 7 (some 0)]

def mainSetup : Setup 2 where
  created := [20, 0, 1, 2, 3, 4, 5, 6, 7, 22, 23, 21]
  tcb := tcbAfter otherTcb mainCalls
  idle := ![22, 23]
  idle_injective := by decide
  idle_created := by decide
  idle_priority := by decide
  idle_isIdle := by decide
  idle_mask := by decide

/-- Every task blocks, the four tasks of the highest declared priorities are
released by a tick, and the next tick shares the core among them. -/
def firstRelease : List (Action mainConfig.numberOfCores) :=
  (List.replicate 8 [.switch 0, .block 0]).flatten ++
    (List.replicate 2 [.switch 1, .block 1]).flatten ++
    [.switch 0, .switch 1, .tick 0, .switch 1, .wake 0 0, .wake 0 1, .wake 0 2,
      .wake 0 3, .switch 0, .tick 0, .switch 0, .switch 1]

/-- The task of declared priority 6 runs while that of 7 is ready on the same
core: the kernel has cut both priorities to 4. -/
theorem mainTable_order_lost :
    ∃ final, spa2 some mainTable = .done final ∧ AllAssigned final.memory ∧
      ∃ setup : Setup mainConfig.numberOfCores,
        setup.tcb = tcbAfter otherTcb final.memory.calls ∧
        ∃ state, (machine setup).Reachable state ∧
          (∀ core, ¬state.pending core) ∧
          ¬∀ core, RunsHighestDeclared final.memory setup state core := by
  have hfinal : (spa2 some mainTable).final.map (fun final =>
      decide (final.memory.calls = mainCalls ∧
        (∀ task, final.memory.coreOf task ≠ none) ∧
        final.memory.coreOf 0 = some 0 ∧
        (final.memory.taskList 0).myPtr = some 0 ∧
        (final.memory.taskList 1).myPtr = some 1 ∧
        (final.memory.taskList 1).priority <
          (final.memory.taskList 0).priority)) = some true := by
    decide +kernel
  obtain ⟨final, hrun, hmemory⟩ := Option.map_eq_some_iff.mp hfinal
  obtain ⟨hcalls, hassigned, hcore, hfirst, hsecond, hlower⟩ :=
    of_decide_eq_true hmemory
  have hexec : ((machine mainSetup).exec (fun _ _ => True) firstRelease
      (machine mainSetup).start).any (fun state =>
        decide (state.current 0 = 1 ∧ 0 ∈ state.ready 4 ∧
          ∀ core, state.yieldPending core = false ∧
            state.runState (state.current core) ≠ .scheduledToYield)) = true := by
    decide +kernel
  obtain ⟨state, hreach, hstate⟩ :=
    Machine.exists_reaches_of_exec firstRelease _ hexec
  obtain ⟨hcurrent, hready, hserved⟩ := of_decide_eq_true hstate
  refine ⟨final, Outcome.eq_done_of_final hrun, fun task _ => hassigned task,
    mainSetup, by rw [hcalls]; rfl, state, hreach, ?_, ?_⟩
  · rintro core (hflag | hyield)
    · exact Bool.false_ne_true ((hserved core).1.symm.trans hflag)
    · exact (hserved core).2 hyield
  · intro hruns
    have hrunning := hsecond.trans (congrArg some hcurrent.symm)
    have hbest := ((hruns 0).1 1 hrunning).2 0 ⟨hcore, 0, hfirst, hready⟩
    exact absurd hlower (not_lt.mpr hbest)

end PicoSched.Kernel
