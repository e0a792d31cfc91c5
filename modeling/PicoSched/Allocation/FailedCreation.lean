import PicoSched.Allocation.Packing
import PicoSched.Model.TaskList

/-!
# Failed task creations

Nobody looks at the result of `xTaskCreate`.  A piece without a task is
assigned and split like any other, so the allocation does not depend on the
results, and it is consistent exactly when the creations of the pieces that the
packing of the task list places or splits off succeed.
-/

namespace PicoSched.Refinement

open Filling Kernel Loop TaskManager Main PreAssign

variable {cfg : Config} {creates : ℕ → Option TaskHandle}
  {table : TaskTable cfg} {state after : State cfg} {memory : Memory cfg}

/-! ## Handles -/

theorem affinityCalls_length (memory : Memory cfg) :
    memory.affinityCalls.length = memory.assigned.length := by
  rw [Memory.affinityCalls, Memory.assigned]
  induction memory.calls with
  | nil => rfl
  | cons call calls ih =>
      cases call with
      | assignTask _ _ _ _ => exact congrArg (· + 1) ih
      | _ => exact ih

/-- Every piece is assigned with the handle its creation left. -/
theorem affinityCalls_eq (hdistinct : DistinctHandles creates)
    (hbuilt : Built creates table memory) :
    memory.affinityCalls = memory.assigned.map fun given =>
      (creates given.1, 1 <<< given.2.val) := by
  induction hbuilt with
  | @init stack memory hinit =>
      obtain ⟨_, _, hinit', hcreated⟩ :=
        initTask_spec creates (initialMemory table)
          (rfl : (initialMemory table).taskList = table.entry) rfl
      rw [hinit] at hinit'
      cases hinit'
      have hassigned : memory.assigned = [] := hcreated.assigned
      have hlength := affinityCalls_length memory
      rw [hassigned] at hlength ⊢
      exact List.length_eq_zero_iff.mp hlength
  | log _ _ ih => exact ih
  | @assign memory task core hbuilt htask ih =>
      have hreg := hbuilt.registered hdistinct fun _ => prvInitialiseNewTask 0
      have hcall : (assignTask task core memory).affinityCalls =
          ((memory.taskList task).myPtr, (memory.coreList core).coreNum) ::
            memory.affinityCalls := rfl
      rw [hcall, assigned_assignTask, List.map_cons, ih,
        hreg.handle task htask, hreg.coreNum core]
  | mark _ _ ih => exact ih
  | split core coreStack stack _ htask hnew ih =>
      obtain ⟨htail, rfl⟩ := newTask_eq_some hnew
      have hne : _ ≠ _ := fun heq => (htail ▸ htask.ne') (congrArg Fin.val heq)
      obtain ⟨room, stack', hresult, _⟩ := taskSplit_cases hne core coreStack stack
      rcases hresult with hresult | ⟨message, hresult⟩
      · rw [hresult]
        exact ih
      · rw [hresult]
        exact ih

/-! ## Consistency -/

/-- No NULL handle was given to `vTaskCoreAffinitySet`, and the pieces that
cores are charged for exist. -/
structure Consistent (memory : Memory cfg) : Prop where
  handles : ∀ call ∈ memory.affinityCalls, call.1 ≠ none
  charged : ∀ given ∈ memory.assigned, (memory.taskList given.1).myPtr ≠ none

/-- A `Task_split` whose `xTaskCreate` fails leaves the body as it was. -/
def FailedSplitKept (creates : ℕ → Option TaskHandle)
    (before after : Memory cfg) : Prop :=
  ∀ task tail, after.splits = (task, tail) :: before.splits →
    creates before.created = none →
      (after.taskList task).runtime = (before.taskList task).runtime ∧
        (after.taskList task).utilization =
          (before.taskList task).utilization ∧
        (after.taskList task).splittedPtr =
          (before.taskList task).splittedPtr

/-- The run of the SPA2 branch leaves a consistent allocation, whatever calls
of `xTaskCreate` fail. -/
def LeavesConsistent (creates : ℕ → Option TaskHandle)
    (table : TaskTable cfg) : Prop :=
  ∀ state, Spa2Head creates table state → Consistent state.memory ∧
    ∀ after, (normalAssign creates).guard state = true →
      normalAssignBody creates state = .ok (.next after) →
        FailedSplitKept creates state.memory after.memory

/-- The slots of the pieces that the packing places, and of the tails it splits
off.  The piece in slot `n` comes from call `n` of `xTaskCreate`. -/
def usedSlots (table : TaskTable cfg) : List ℕ :=
  ((slotPacking table).placed ++ (spa2Problem table).given).map
      (fun x => x.piece.slot) ++
    List.range' cfg.numOfTask
      ((slotPacking table).placed.filter Placement.body).length

/-- The creations succeed for the pieces that the packing uses. -/
def UsedCreationsSucceed (creates : ℕ → Option TaskHandle)
    (table : TaskTable cfg) : Prop :=
  ∀ slot ∈ usedSlots table, creates slot ≠ none

theorem PlacesIn.splits_eq {P : Problem (CorePtr cfg)} {core : CorePtr cfg}
    {stack stack' : TaskStack cfg} {memory' : Memory cfg}
    {plan plan' : Plan (CorePtr cfg)}
    (hplaces : PlacesIn creates P core stack memory plan stack' memory' plan') :
    memory'.splits = memory.splits ∨
      ∃ split, memory'.splits = split :: memory.splits := by
  cases hplaces with
  | fit _ _ => exact .inl rfl
  | split _ _ _ _ => exact .inr ⟨_, rfl⟩

/-- Every split was made by an iteration of the loop. -/
theorem exists_split (hhead : Spa2Head creates table state) :
    ∀ split ∈ state.memory.splits, ∃ before after,
      Spa2Head creates table before ∧
        (normalAssign creates).guard before = true ∧
        normalAssignBody creates before = .ok (.next after) ∧
        after.memory.splits = split :: before.memory.splits := by
  obtain ⟨ready, start, hsetup, hstart, hloop⟩ := hhead
  have hboth : Spa2Head creates table state ∧
      ∀ split ∈ state.memory.splits, ∃ before after,
        Spa2Head creates table before ∧
          (normalAssign creates).guard before = true ∧
          normalAssignBody creates before = .ok (.next after) ∧
          after.memory.splits = split :: before.memory.splits := by
    apply hloop.invariant
    · refine ⟨⟨ready, start, hsetup, hstart, .start⟩, ?_⟩
      rw [(chosen_of_preAssign hsetup hstart).splits]
      nofun
    · rintro before after ⟨hhead, ih⟩ hguard hbody
      refine ⟨Spa2Head.next hhead hguard hbody, fun split hsplit => ?_⟩
      obtain ⟨plan, hplan⟩ := spa2Head_state hhead
      obtain ⟨_, _, _, hplaces, _⟩ := hplan.next hguard hbody
      rcases hplaces.splits_eq with hsame | ⟨made, hnew⟩
      · exact ih split (hsame ▸ hsplit)
      · rw [hnew, List.mem_cons] at hsplit
        rcases hsplit with rfl | hold
        · exact ⟨before, after, hhead, hguard, hbody, hnew⟩
        · exact ih split hold
  exact hboth.2

/-- A split takes utilization from the body. -/
theorem Represents.split_utilization {P : Problem (CorePtr cfg)}
    {stack stack' : TaskStack cfg} {memory' : Memory cfg}
    {plan plan' : Plan (CorePtr cfg)} {core : CorePtr cfg}
    {task tail : TaskPtr cfg}
    (hrep : Represents creates table P stack memory plan)
    (hplaces : PlacesIn creates P core stack memory plan stack' memory' plan')
    (hsplits : memory'.splits = (task, tail) :: memory.splits) :
    tail.val = memory.currIdx ∧ (memory'.taskList task).utilization <
      (memory.taskList task).utilization := by
  cases hplaces with
  | fit _ _ =>
      have hlength := congrArg List.length hsplits
      simp at hlength
  | @split body _ _ piece pieces room hentries hslot hroom hover =>
      rw [splits_assignTask, splits_splitMemory] at hsplits
      obtain ⟨hpair, _⟩ := List.cons.inj hsplits
      obtain ⟨rfl, rfl⟩ := Prod.mk.inj hpair
      refine ⟨rfl, ?_⟩
      have hqueue := hrep.queue
      rw [hentries, List.map_cons, List.map_cons, List.cons.injEq] at hqueue
      have hcarries :=
        (hrep.waiting body piece (List.mem_cons_self ..) hqueue.1).1
      rw [taskList_assignTask, taskList_splitMemory_body,
        hcarries.utilization]
      change room < piece.load
      linarith

/-! ## The slots of a run -/

/-- The pieces a run assigns are among those the packing uses. -/
theorem assigned_usedSlots (hhead : Spa2Head creates table state) :
    ∀ given ∈ state.memory.assigned, given.1.val ∈ usedSlots table := by
  intro given hgiven
  obtain ⟨fuel, plan, hleads, hplan⟩ := spa2Head_leads hhead
  obtain ⟨x, hx, hslot, _⟩ := hplan.represents.placement_of_assigned hgiven
  have hkept : plan.placed ⊆ (slotPacking table).placed := by
    rw [← hleads.2]
    exact (Problem.placed_packWithin ..).subset
  rw [hslot, usedSlots]
  refine List.mem_append_left _ (List.mem_map.mpr ⟨x, ?_, rfl⟩)
  exact (List.mem_append.mp hx).elim
    (fun hplaced => List.mem_append_left _ (hkept hplaced))
    (List.mem_append_right _)

/-- So are the tails a run splits off. -/
theorem splits_usedSlots (hhead : Spa2Head creates table state) :
    ∀ split ∈ state.memory.splits, split.2.val ∈ usedSlots table := by
  intro split hsplit
  obtain ⟨fuel, plan, hleads, hplan⟩ := spa2Head_leads hhead
  have hbodies : (plan.placed.filter Placement.body).length ≤
      ((slotPacking table).placed.filter Placement.body).length := by
    rw [← hleads.2]
    exact ((Problem.placed_packWithin ..).filter _).length_le
  have htail : split.2.val ∈ state.memory.splits.map fun split => split.2.val :=
    List.mem_map_of_mem hsplit
  rw [hplan.represents.tails, List.mem_reverse, List.mem_range'_1] at htail
  have hlength := hplan.represents.bodies_length
  rw [usedSlots]
  refine List.mem_append_right _ (List.mem_range'_1.mpr ⟨htail.1, ?_⟩)
  omega

/-- A run uses all the slots the packing uses. -/
theorem usedSlots_cases
    (hstate : Spa2State creates table state (slotPacking table)) :
    ∀ slot ∈ usedSlots table,
      (∃ given ∈ state.memory.assigned, given.1.val = slot) ∨
        ∃ split ∈ state.memory.splits, split.2.val = slot := by
  intro slot hslot
  have hrep := hstate.represents
  rcases List.mem_append.mp hslot with hplaced | htail
  · left
    obtain ⟨x, hx, rfl⟩ := List.mem_map.mp hplaced
    have hmem : (x.piece.slot, x.core) ∈
        state.memory.assigned.map (Prod.map Fin.val id) := by
      rw [hrep.assigned]
      exact List.mem_map_of_mem (f := fun x => (x.piece.slot, x.core)) hx
    obtain ⟨given, hgiven, heq⟩ := List.mem_map.mp hmem
    exact ⟨given, hgiven, (Prod.mk.inj heq).1⟩
  · right
    have hlength := hrep.bodies_length
    have hmem : slot ∈ state.memory.splits.map fun split => split.2.val := by
      rw [hrep.tails, List.mem_reverse, List.mem_range'_1]
      rw [List.mem_range'_1] at htail
      omega
    exact List.mem_map.mp hmem

/-! ## Consistency and the creations -/

theorem consistent_of_created (hdistinct : DistinctHandles creates)
    (hcreated : UsedCreationsSucceed creates table) :
    LeavesConsistent creates table := by
  intro state hhead
  have hbuilt := built_of_spa2Head hhead
  have hreg := hbuilt.registered hdistinct fun _ => prvInitialiseNewTask 0
  have hassigned := assigned_usedSlots hhead
  refine ⟨⟨?_, ?_⟩, ?_⟩
  · intro call hcall
    rw [affinityCalls_eq hdistinct hbuilt] at hcall
    obtain ⟨given, hgiven, rfl⟩ := List.mem_map.mp hcall
    exact hcreated _ (hassigned given hgiven)
  · intro given hgiven
    rw [hreg.handle given.1 (hreg.given given hgiven)]
    exact hcreated _ (hassigned given hgiven)
  · intro after hguard hbody task tail hsplits hnone
    obtain ⟨plan, hplan⟩ := spa2Head_state hhead
    obtain ⟨_, _, _, hplaces, _⟩ := hplan.next hguard hbody
    obtain ⟨htail, _⟩ := hplan.represents.split_utilization hplaces hsplits
    rw [hplan.represents.created, ← htail] at hnone
    have hused := splits_usedSlots (Spa2Head.next hhead hguard hbody)
      (task, tail) (hsplits ▸ List.mem_cons_self ..)
    exact absurd hnone (hcreated _ hused)

theorem created_of_consistent (hdistinct : DistinctHandles creates)
    (hconsistent : LeavesConsistent creates table) :
    UsedCreationsSucceed creates table := by
  obtain ⟨state, hhead, hstate⟩ := exists_head_slotPacking creates table
  have hreg := (built_of_spa2Head hhead).registered hdistinct fun _ =>
    prvInitialiseNewTask 0
  intro slot hslot hnone
  rcases usedSlots_cases hstate slot hslot with
    ⟨given, hgiven, rfl⟩ | ⟨split, hsplit, rfl⟩
  · rw [← hreg.handle given.1 (hreg.given given hgiven)] at hnone
    exact (hconsistent state hhead).1.charged given hgiven hnone
  · -- a failed creation of a tail would have left the body changed
    obtain ⟨before, after, hbefore, hguard, hbody, hsplits⟩ :=
      exists_split hhead split hsplit
    obtain ⟨_, hplan⟩ := spa2Head_state hbefore
    obtain ⟨_, _, _, hplaces, _⟩ := hplan.next hguard hbody
    obtain ⟨htail, hless⟩ :=
      hplan.represents.split_utilization hplaces hsplits
    have hkept := (hconsistent before hbefore).2 after hguard hbody
    rw [htail, ← hplan.represents.created] at hnone
    exact absurd (hkept split.1 split.2 hsplits hnone).2.1 hless.ne

/-- The allocation stays consistent exactly when the creations of the pieces
that the packing of the task list uses succeed. -/
theorem leavesConsistent_iff (hdistinct : DistinctHandles creates) :
    LeavesConsistent creates table ↔ UsedCreationsSucceed creates table :=
  ⟨created_of_consistent hdistinct, consistent_of_created hdistinct⟩

/-- Four tasks on two cores.  Both cores are full before `TASK 0` is popped, so
it stays in `UQ`. -/
def leftoverConfig : Config := .checked 4 2 (7568 / 10000) (by norm_num)

def leftoverTable : TaskTable leftoverConfig :=
  TaskTable.ofRows leftoverConfig ![.mk 1 5 4, .mk 2 5 3, .mk 4 5 2, .mk 2 5 1]

/-- The first call fails. -/
def noFirstTask (call : ℕ) : Option TaskHandle :=
  if call = 0 then none else some call

theorem leftoverTable_leavesConsistent : noFirstTask 0 = none ∧
    usedSlots leftoverTable = [1, 3, 2, 4] ∧
    LeavesConsistent noFirstTask leftoverTable := by
  have hused : usedSlots leftoverTable = [1, 3, 2, 4] := by decide +kernel
  refine ⟨rfl, hused, (leavesConsistent_iff ?_).mpr ?_⟩
  · intro first second handle hfirst hsecond
    obtain ⟨_, hfirst⟩ := Option.ite_none_left_eq_some.mp hfirst
    obtain ⟨_, hsecond⟩ := Option.ite_none_left_eq_some.mp hsecond
    exact (Option.some.inj hfirst).trans (Option.some.inj hsecond).symm
  · rw [UsedCreationsSucceed, hused]
    decide

/-- The heap has room for the declared tasks only. -/
def noRoomForTail (call : ℕ) : Option TaskHandle :=
  if call < 7 then some call else none

/-- The tail of the one split is not created and is assigned all the same. -/
theorem mainTable_not_leavesConsistent :
    ¬LeavesConsistent noRoomForTail mainTable := by
  intro hconsistent
  have hfinal : (spa2 noRoomForTail mainTable).final.any (fun state =>
      decide (∃ call ∈ state.memory.affinityCalls, call.1 = none)) = true := by
    decide +kernel
  rw [Option.any_eq_true] at hfinal
  obtain ⟨state, hstate, hnull⟩ := hfinal
  have hhead := (spa2Head_of_done (Outcome.eq_done_of_final hstate)).1
  obtain ⟨call, hcall, hnone⟩ := of_decide_eq_true hnull
  exact (hconsistent state hhead).1.handles call hcall hnone

end PicoSched.Refinement
