import PicoSched.Allocation.Completeness
import PicoSched.Allocation.RealLoads
import PicoSched.Allocation.Schedulable
import PicoSched.Allocation.SplitChains

/-!
# The memory a finished run leaves

When the loop ends with an empty queue, every piece of every task is on a
core.  If all splits cut between two ticks, the runtimes in memory are the
loads of the packing in whole ticks.
-/

namespace PicoSched.Refinement

open Filling Kernel TaskManager Main PreAssign

variable {cfg : Config} {creates : ℕ → Option TaskHandle}
  {table : TaskTable cfg} {final : State cfg}
  {chain : Fin cfg.numOfTask → List (TaskPtr cfg)}
  {index : Fin cfg.numOfTask} {slot : TaskPtr cfg}
  {x y : Placement (CorePtr cfg)}

/-- `Period` of a declared task, in ticks. -/
def periodTicks (table : TaskTable cfg) (task : ℕ) : ℕ :=
  if htask : task < cfg.numOfTask then (table.task ⟨task, htask⟩).period else 0

@[simp]
theorem periodTicks_val (table : TaskTable cfg) (index : Fin cfg.numOfTask) :
    periodTicks table index = (table.task index).period := dif_pos index.isLt

theorem taskPeriod_eq (table : TaskTable cfg) (task : ℕ) :
    taskPeriod table task = periodTicks table task := by
  rw [taskPeriod, periodTicks]
  split
  · rfl
  · exact Nat.cast_zero.symm

/-- Every split of the packing cuts between two ticks. -/
def WholeSplits (table : TaskTable cfg) : Prop :=
  ∀ x ∈ (packing table).placed, x.body = true →
    Int.fract (x.piece.load * taskPeriod table x.piece.task) = 0

instance (table : TaskTable cfg) : Decidable (WholeSplits table) :=
  inferInstanceAs (Decidable (∀ _ ∈ _, _))

/-- The slot a piece has in `task_list`. -/
def slotOf (x : Placement (CorePtr cfg)) : TaskPtr cfg :=
  ⟨x.piece.slot % cfg.maxNumTasks,
    Nat.mod_lt _ (cfg.tasks_pos.trans_le cfg.numOfTask_le_maxNumTasks)⟩

/-! ## The end of the run -/

/-- The first piece of a task waits for no other. -/
theorem first_kept : Kept creates table fun memory _ => ∀ index,
    (memory.taskList (cfg.original index)).dependency = false := by
  intro state after plan plan' core hstate _ hplaces hfirst
  have hrep := hstate.represents
  generalize after.uq = uq at hplaces
  generalize after.memory = memory at hplaces ⊢
  cases hplaces with
  | fit _ _ => exact hfirst
  | @split task rest placed piece pieces room hentries hslot hroom hover =>
      have hqueue := hrep.queue
      rw [hentries, List.map_cons, List.map_cons, List.cons.injEq] at hqueue
      generalize hmemory : assignTask task core (splitMemory creates task
        ⟨state.memory.currIdx, hslot⟩ core room
        { state.memory with currIdx := state.memory.currIdx + 1 }) = memory
      have hrecords : SplitRecords room state.memory memory task
          ⟨state.memory.currIdx, hslot⟩ _ _ :=
        hmemory ▸ splitRecords_splitMemory hrep hqueue.1 hslot
      intro index
      by_cases hbody : cfg.original index = task
      · rw [hbody, hrecords.bodyRecord]
        exact hbody ▸ hfirst index
      · rw [hrecords.others _ hbody]
        · exact hfirst index
        · intro htail
          have hval := congrArg Fin.val htail
          rw [Config.val_original] at hval
          exact (index.isLt.trans_le hrep.currIdx_ge).ne hval

/-- What the placements keep besides the plan. -/
structure Tracked (table : TaskTable cfg) (memory : Memory cfg)
    (plan : Plan (CorePtr cfg)) : Prop where
  shares : Shares table (spa2Problem table) memory plan
  chains : ∃ chain, Chains table (spa2Problem table) memory plan chain
  first : ∀ index,
    (memory.taskList (cfg.original index)).dependency = false

theorem tracked_start (hsized : Sized table) {start : State cfg}
    (hstart : Chosen creates table cfg.numOfTask start) :
    Tracked table start.memory ⟨[], (spa2Problem table).pieces⟩ where
  shares := shares_start hsized.period_pos hstart
  chains := ⟨_, chains_start hstart⟩
  first index := by
    rw [hstart.taskList, initialInfo]
    split <;> exact table.dependency_eq _

theorem tracked_kept (hsized : Sized table) :
    Kept creates table (Tracked table) := by
  intro _ _ _ _ _ hstate htarget hplaces htracked
  exact ⟨shares_kept hsized.period_pos hstate htarget hplaces htracked.shares,
    chains_kept hstate htarget hplaces htracked.chains,
    first_kept hstate htarget hplaces htracked.first⟩

/-- The memory of a finished run, with the packing and the chains of pieces
behind it. -/
structure Packed (creates : ℕ → Option TaskHandle) (table : TaskTable cfg)
    (final : State cfg) (chain : Fin cfg.numOfTask → List (TaskPtr cfg)) : Prop
    extends ChainState creates table final (packing table) chain where
  shares : Shares table (spa2Problem table) final.memory (packing table)
  first : ∀ index,
    (final.memory.taskList (cfg.original index)).dependency = false
  empty : (packing table).queue = []

theorem exists_packed (hsized : Sized table)
    (hrun : spa2 creates table = .done final) :
    ∃ chain, Packed creates table final chain := by
  obtain ⟨hstate, htracked, hempty⟩ := spa2_packing (tracked_kept hsized)
    (fun _ => tracked_start hsized) hrun
  obtain ⟨chain, hchains⟩ := htracked.chains
  exact ⟨chain, ⟨hstate, hchains⟩, htracked.shares, htracked.first, hempty⟩

namespace Packed

variable (hpacked : Packed creates table final chain)

include hpacked

theorem val_slotOf (hx : x ∈ (packing table).placed ++ (spa2Problem table).given) :
    (slotOf x).val = x.piece.slot :=
  Nat.mod_eq_of_lt ((hpacked.head.represents.slot_lt.2 x hx).trans_le
    hpacked.head.represents.currIdx_le)

/-- Every piece of a task is on a core. -/
theorem exists_placement (hslot : slot ∈ chain index) :
    ∃ x ∈ (packing table).placed ++ (spa2Problem table).given,
      slot = slotOf x ∧ x.piece.task = index := by
  have hmem := (hpacked.chains.member index slot).mp hslot
  rw [slotTasks, hpacked.empty, List.map_nil, List.nil_append] at hmem
  obtain ⟨x, hx, heq⟩ := List.mem_map.mp hmem
  obtain ⟨hval, htask⟩ := Prod.mk.inj heq
  exact ⟨x, hx, Fin.ext (hval.symm.trans (hpacked.val_slotOf hx).symm), htask⟩

theorem carries (hx : x ∈ (packing table).placed ++ (spa2Problem table).given) :
    Carries table x.piece (final.memory.taskList (slotOf x)) :=
  (hpacked.head.represents.placed _ x hx (hpacked.val_slotOf hx)).1

theorem task_lt (hx : x ∈ (packing table).placed ++ (spa2Problem table).given) :
    x.piece.task < cfg.numOfTask := by
  obtain ⟨index, hindex, _⟩ := (hpacked.carries hx).origin
  exact hindex ▸ index.isLt

theorem period_eq
    (hx : x ∈ (packing table).placed ++ (spa2Problem table).given) :
    (final.memory.taskList (slotOf x)).period =
      periodTicks table x.piece.task := by
  obtain ⟨index, hindex, hperiod, _⟩ := (hpacked.carries hx).origin
  rw [hperiod, ← hindex, periodTicks_val]

theorem slotOf_injOn
    (hx : x ∈ (packing table).placed ++ (spa2Problem table).given)
    (hy : y ∈ (packing table).placed ++ (spa2Problem table).given)
    (hslot : slotOf x = slotOf y) : x = y := by
  apply hpacked.head.represents.placement_eq hx hy
  rw [← hpacked.val_slotOf hx, ← hpacked.val_slotOf hy, hslot]

/-- Between two ticks the runtimes are the loads. -/
theorem runtime_eq (hwhole : WholeSplits table)
    (hx : x ∈ (packing table).placed ++ (spa2Problem table).given) :
    ((final.memory.taskList (slotOf x)).runtime : ℚ) =
      x.piece.load * periodTicks table x.piece.task := by
  have hval := hpacked.val_slotOf hx
  rw [← taskPeriod_eq]
  rcases List.mem_append.mp hx with hplaced | hgiven
  · rw [hpacked.shares.placed _ x hplaced hval, executedShare,
      lostShare_of_whole (hwhole x hplaced), movedShare_of_whole hwhole,
      sub_zero, add_zero, ite_self]
  · exact hpacked.shares.given _ x hgiven hval

theorem timed (hsized : Sized table) (hwhole : WholeSplits table)
    (hperiod : Monotone fun index => (table.task index).period) :
    (spa2Problem table).Timed (packing table) (periodTicks table)
      (fun x => (final.memory.taskList (slotOf x)).runtime) cfg.numOfTask where
  period_pos x hx := by
    rw [periodTicks, dif_pos (hpacked.task_lt hx)]
    exact hsized.period_pos _
  period_mono x hx y hy hle := by
    rw [periodTicks, dif_pos (hpacked.task_lt hx), periodTicks,
      dif_pos (hpacked.task_lt hy)]
    exact hperiod hle
  cost_eq x hx := hpacked.runtime_eq hwhole hx
  load_pos x hx := by
    rcases List.mem_append.mp hx with hplaced | hgiven
    · exact hpacked.head.reaches.placed_pos hsized.pieces_pos x hplaced
    · rw [(mem_given x hgiven).2.1]
      exact hsized.load_pos (hpacked.task_lt hx)
  task_lt x hx := hpacked.task_lt hx

/-- The bodies of a task and its last piece have the load of the task. -/
theorem bodyLoad_add_load
    (hx : x ∈ (packing table).placed ++ (spa2Problem table).given)
    (hlast : x.body = false) :
    bodyLoad (packing table).placed x.piece.task + x.piece.load =
      load table x.piece.task := by
  have hreach := hpacked.head.reaches
  rcases List.mem_append.mp hx with hplaced | hgiven
  · obtain ⟨q, hq, htask⟩ := hreach.placed_task x hplaced
    rw [hreach.bodyLoad_add_load x hplaced hlast, ← htask,
      taskLoad_eq_of_mem (spa2Problem table).descending hq]
    exact congrArg Piece.load (mem_waiting q hq).1
  · rw [hreach.bodyLoad_given hgiven, zero_add]
    exact congrArg Piece.load (mem_given x hgiven).2.1

/-- The latest piece of a task is not a body. -/
theorem whole_of_head
    (hx : x ∈ (packing table).placed ++ (spa2Problem table).given)
    (hhead : (chain index).head? = some (slotOf x))
    (hcreates : ∀ call, creates call ≠ none) : x.body = false := by
  have hrep := hpacked.head.represents
  have hchains := hpacked.chains
  by_contra hbody
  rw [Bool.not_eq_false] at hbody
  have hplaced : x ∈ (packing table).placed := by
    rcases List.mem_append.mp hx with hplaced | hgiven
    · exact hplaced
    · rw [(spa2Problem table).given_whole x hgiven] at hbody
      exact absurd hbody Bool.false_ne_true
  -- the split that made the body has linked it to its tail
  have hsplit : x.piece.slot ∈
      final.memory.splits.map fun split => split.1.val := by
    rw [hrep.bodies]
    exact List.mem_map_of_mem (f := fun x => x.piece.slot)
      (List.mem_filter.mpr ⟨hplaced, hbody⟩)
  obtain ⟨⟨body, tail⟩, hsplit, hslot⟩ := List.mem_map.mp hsplit
  obtain rfl : body = slotOf x :=
    Fin.ext (hslot.trans (hpacked.val_slotOf hx).symm)
  have hlink := hchains.link_of_split hrep hsplit (List.mem_of_mem_head? hhead)
  exact (hlink.handle hrep fun call _ => hcreates call).2
    ((hchains.each index).open_end _ hhead)

end Packed

end PicoSched.Refinement
