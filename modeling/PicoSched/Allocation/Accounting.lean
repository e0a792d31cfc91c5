import Mathlib.Algebra.BigOperators.Fin
import PicoSched.Allocation.Runs
import PicoSched.Model.TaskList

/-!
# Nothing lost, nothing duplicated

At every head of the normal-assign loop each core sits in one of the two core
stacks, each piece waits or has been assigned, and every load is accounted
for.
-/

namespace PicoSched.Filling

variable {κ : Type*} [DecidableEq κ] {P : Problem κ}

/-- A split leaves as many pieces waiting as before, a fit one less. -/
theorem Problem.Reaches.queue_length_le {plan : Plan κ}
    (hreach : P.Reaches plan) : plan.queue.length ≤ P.pieces.length := by
  induction hreach using Problem.Reaches.induct with
  | start => exact le_rfl
  | step before after core _ ih _ hplaces =>
      cases hplaces with
      | fit _ => exact (Nat.le_succ _).trans ih
      | split _ => exact ih

/-- The cores carry what has been placed. -/
theorem sum_coreLoad_univ [Fintype κ] (placed : List (Placement κ)) :
    ∑ core, coreLoad placed core =
      taskLoad (fun _ => True) (placed.map Placement.piece) := by
  rw [sum_coreLoad, taskLoad, List.map_map]
  simp only [Finset.mem_univ, if_true]
  rfl

/-- The loads of the cores and of the waiting pieces add up to all loads. -/
theorem Problem.Reaches.sum_load [Fintype κ] {plan : Plan κ}
    (hreach : P.Reaches plan) :
    ∑ core, P.load plan core + taskLoad (fun _ => True) plan.queue =
      taskLoad (fun _ => True) (P.given.map Placement.piece) +
        taskLoad (fun _ => True) P.pieces := by
  have htotal := hreach.taskLoad_eq fun _ => True
  simp only [Problem.load]
  rw [Finset.sum_add_distrib, sum_coreLoad_univ, sum_coreLoad_univ, ← htotal]
  ring

end PicoSched.Filling

namespace PicoSched.Refinement

open Filling Loop TaskManager Main PreAssign

variable {cfg : Config} {creates : ℕ → Option TaskHandle}
  {table : TaskTable cfg}

/-- The load of the pieces given to `Assign_task` for one core. -/
def assignedLoad (memory : Memory cfg) (core : CorePtr cfg) : ℚ :=
  (memory.assigned.map fun entry =>
    if entry.2 = core then (memory.taskList entry.1).utilization else 0).sum

/-- The load of the pieces on a stack. -/
def stackLoad (memory : Memory cfg) (stack : TaskStack cfg) : ℚ :=
  (stack.entries.map fun task => (memory.taskList task).utilization).sum

/-- Every core, every piece and every load is in exactly one place. -/
structure Accounted (table : TaskTable cfg) (state : State cfg) : Prop where
  cores : ∀ core, (state.coreManager.list.entries ++
    state.preAssignedCore.list.entries).count core = 1
  pieces : ∀ task : TaskPtr cfg,
    (state.uq.entries ++ state.memory.assigned.map Prod.fst).count task =
      if task.val < state.memory.currIdx then 1 else 0
  loads : ∀ core, (state.memory.coreList core).utilization =
    assignedLoad state.memory core
  total : ∑ core, (state.memory.coreList core).utilization +
      stackLoad state.memory state.uq =
    ∑ index : Fin cfg.numOfTask,
      ((table.task index).runtime : ℚ) / (table.task index).period
  waiting : state.uq.entries.length ≤ cfg.numOfTask
  dropped : .taskStackOverflow ∉ state.memory.printed ∧
    .coreStackOverflow ∉ state.memory.printed
  extra : ∀ task : TaskPtr cfg,
    (state.memory.splits.map Prod.snd).count task =
      if cfg.numOfTask ≤ task.val ∧ task.val < state.memory.currIdx then 1
      else 0

section Represented

variable {P : Problem (CorePtr cfg)} {stack : TaskStack cfg}
  {memory : Memory cfg} {plan : Plan (CorePtr cfg)}

/-- The waiting pieces and the assigned ones are the slots in use. -/
theorem Represents.pieces_perm
    (hrep : Represents creates table P stack memory plan) :
    ((stack.entries ++ memory.assigned.map Prod.fst).map Fin.val).Perm
      (List.range memory.currIdx) := by
  have hassigned := congrArg (List.map Prod.fst) hrep.assigned
  rw [List.map_map, List.map_map] at hassigned
  have hslots : (memory.assigned.map Prod.fst).map Fin.val =
      (plan.placed ++ P.given).map fun x => x.piece.slot := by
    rw [List.map_map]
    exact hassigned
  rw [List.map_append, hrep.queue, hslots]
  exact hrep.slots_perm

theorem Represents.count_pieces
    (hrep : Represents creates table P stack memory plan)
    (task : TaskPtr cfg) :
    (stack.entries ++ memory.assigned.map Prod.fst).count task =
      if task.val < memory.currIdx then 1 else 0 := by
  rw [← List.count_map_of_injective _ Fin.val Fin.val_injective,
    hrep.pieces_perm.count_eq, List.nodup_range.count]
  simp only [List.mem_range]

/-- The utilization a slot number stands for. -/
def slotLoad (memory : Memory cfg) (slot : ℕ) : ℚ :=
  if hslot : slot < cfg.maxNumTasks then
    (memory.taskList ⟨slot, hslot⟩).utilization
  else 0

theorem slotLoad_val (memory : Memory cfg) (task : TaskPtr cfg) :
    slotLoad memory task.val = (memory.taskList task).utilization := by
  rw [slotLoad, dif_pos task.isLt]

theorem Represents.slotLoad_waiting
    (hrep : Represents creates table P stack memory plan) {p : Piece}
    (hp : p ∈ plan.queue) : slotLoad memory p.slot = p.load := by
  have hslot := (hrep.slot_lt.1 p hp).trans_le hrep.currIdx_le
  rw [slotLoad, dif_pos hslot]
  exact (hrep.waiting ⟨_, hslot⟩ p hp rfl).1.utilization

theorem Represents.assignedLoad_eq
    (hrep : Represents creates table P stack memory plan)
    (core : CorePtr cfg) : assignedLoad memory core = P.load plan core := by
  have hload : ∀ task : TaskPtr cfg, ∀ x ∈ plan.placed ++ P.given,
      task.val = x.piece.slot →
        (memory.taskList task).utilization = x.piece.load := fun task x hx hslot =>
    (hrep.placed task x hx hslot).1.utilization
  rw [assignedLoad, hrep.sum_assigned hload core, Problem.load, add_comm,
    ← coreLoad_append]
  rfl

theorem Represents.stackLoad_eq
    (hrep : Represents creates table P stack memory plan) :
    stackLoad memory stack = taskLoad (fun _ => True) plan.queue := by
  have hqueue := congrArg (List.map (slotLoad memory)) hrep.queue
  rw [List.map_map, List.map_map] at hqueue
  have hentries : stack.entries.map (slotLoad memory ∘ Fin.val) =
      stack.entries.map fun task => (memory.taskList task).utilization :=
    List.map_congr_left fun task _ => slotLoad_val memory task
  have hwaiting : plan.queue.map (slotLoad memory ∘ Piece.slot) =
      plan.queue.map Piece.load :=
    List.map_congr_left fun p hp => hrep.slotLoad_waiting hp
  rw [stackLoad, taskLoad, ← hentries, hqueue, hwaiting]
  simp only [if_true]

theorem Represents.count_tails
    (hrep : Represents creates table P stack memory plan)
    (task : TaskPtr cfg) :
    (memory.splits.map Prod.snd).count task =
      if cfg.numOfTask ≤ task.val ∧ task.val < memory.currIdx then 1 else 0 := by
  have htails : (memory.splits.map Prod.snd).map Fin.val =
      (List.range' cfg.numOfTask (memory.currIdx - cfg.numOfTask)).reverse := by
    rw [List.map_map]
    exact hrep.tails
  have hge := hrep.currIdx_ge
  rw [← List.count_map_of_injective _ Fin.val Fin.val_injective, htails,
    List.count_reverse, (List.nodup_range' ..).count]
  simp only [List.mem_range'_1]
  congr 1
  rw [Nat.add_sub_cancel' hge]

end Represented

theorem sum_table (table : TaskTable cfg) :
    ∑ index ∈ Finset.range cfg.numOfTask, load table index =
      ∑ index : Fin cfg.numOfTask,
        ((table.task index).runtime : ℚ) / (table.task index).period := by
  rw [Finset.sum_range]
  exact Finset.sum_congr rfl fun index _ => load_original table index

/-- The cores of the two stacks are all cores. -/
theorem Spa2State.count_cores {state : State cfg} {plan : Plan (CorePtr cfg)}
    (hstate : Spa2State creates table state plan) (core : CorePtr cfg) :
    (state.coreManager.list.entries ++
      state.preAssignedCore.list.entries).count core = 1 := by
  rw [hstate.free, hstate.reserve, List.count_append, ← List.count_reverse,
    ← List.count_append]
  change ((prepare table cfg.numOfTask).free.reverse ++
    (prepare table cfg.numOfTask).given.map Placement.core).count core = 1
  rw [prepare_partition]
  exact List.count_eq_one_of_mem (List.nodup_finRange _) (List.mem_finRange core)

/-- Nothing is lost or duplicated in any run of the SPA2 branch. -/
theorem spa2Head_accounted (creates : ℕ → Option TaskHandle)
    (table : TaskTable cfg) (state : State cfg)
    (hhead : Spa2Head creates table state) : Accounted table state := by
  obtain ⟨plan, hstate⟩ := spa2Head_state hhead
  have hrep := hstate.represents
  constructor
  · exact hstate.count_cores
  · exact hrep.count_pieces
  · intro core
    rw [hstate.utilization, hrep.assignedLoad_eq]
  · have hall := taskLoad_prepare table (fun _ => True) cfg.numOfTask
    simp only [if_true] at hall
    calc
      ∑ core, (state.memory.coreList core).utilization +
            stackLoad state.memory state.uq =
          ∑ core, (spa2Problem table).load plan core +
            taskLoad (fun _ => True) plan.queue := by
        rw [hrep.stackLoad_eq]
        congr 1
        exact Finset.sum_congr rfl fun core _ => hstate.utilization core
      _ = ∑ index ∈ Finset.range cfg.numOfTask, load table index := by
        rw [hstate.reaches.sum_load]
        exact hall
      _ = _ := sum_table table
  · have hlength := congrArg List.length hrep.queue
    rw [List.length_map, List.length_map] at hlength
    rw [hlength]
    exact hstate.reaches.queue_length_le.trans
      (waiting_length_le table cfg.numOfTask)
  · constructor
    · intro hmem
      obtain ⟨number, hmessage⟩ := hrep.printed _ hmem
      cases hmessage
    · intro hmem
      obtain ⟨number, hmessage⟩ := hrep.printed _ hmem
      cases hmessage
  · exact hrep.count_tails

/-- The run on the task list of the repository, which splits one task. -/
theorem mainTable_accounted :
    ∃ state, Spa2Head some mainTable state ∧ state.memory.splits.length = 1 ∧
      Accounted mainTable state := by
  have hfinal : (spa2 some mainTable).final.map
      (fun state => state.memory.splits.length) = some 1 := by
    decide +kernel
  obtain ⟨state, hstate, hsplits⟩ := Option.map_eq_some_iff.mp hfinal
  have hhead := (spa2Head_of_done (Outcome.eq_done_of_final hstate)).1
  exact ⟨state, hhead, hsplits, spa2Head_accounted some mainTable state hhead⟩

end PicoSched.Refinement
