import PicoSched.Allocation.Setup

/-!
# The program's memory represents a plan

The normal-assign loops of both variants work on memory that represents a plan
of the filling problem: the stack holds the queue, the calls of `Assign_task`
are the placements, the core records carry the loads.  Placing the next piece
in memory is placing it in the plan.
-/

namespace PicoSched.Refinement

open BoundedStack Filling Loop TaskManager Main PreAssign

variable {cfg : Config}

/-- The record of a piece: its load, and what all pieces of its task share. -/
structure Carries (table : TaskTable cfg) (piece : Piece) (info : TaskInfo) :
    Prop where
  utilization : info.utilization = piece.load
  origin : ∃ index : Fin cfg.numOfTask, index.val = piece.task ∧
    info.period = (table.task index).period ∧
    info.priority = (table.task index).priority ∧
    info.taskName = (table.task index).taskName

/-- Every slot in use, waiting or placed. -/
def slotsInUse (P : Problem (CorePtr cfg)) (plan : Plan (CorePtr cfg)) : List ℕ :=
  plan.queue.map Piece.slot ++
    (plan.placed ++ P.given).map fun x => x.piece.slot

structure Represents (creates : ℕ → Option TaskHandle) (table : TaskTable cfg)
    (P : Problem (CorePtr cfg)) (stack : TaskStack cfg) (memory : Memory cfg)
    (plan : Plan (CorePtr cfg)) : Prop where
  queue : stack.entries.map Fin.val = plan.queue.map Piece.slot
  assigned : memory.assigned.map (Prod.map Fin.val id) =
    (plan.placed ++ P.given).map fun x => (x.piece.slot, x.core)
  coreList : ∀ core, memory.coreList core =
    ⟨1 <<< core.val, P.load plan core, decide (core ∈ P.reserve)⟩
  slots_perm : (slotsInUse P plan).Perm (List.range memory.currIdx)
  currIdx_ge : cfg.numOfTask ≤ memory.currIdx
  currIdx_le : memory.currIdx ≤ cfg.maxNumTasks
  created : memory.created = memory.currIdx
  waiting : ∀ task : TaskPtr cfg, ∀ p ∈ plan.queue, task.val = p.slot →
    Carries table p (memory.taskList task) ∧
      (memory.taskList task).splittedPtr = none
  placed : ∀ task : TaskPtr cfg, ∀ x ∈ plan.placed ++ P.given,
    task.val = x.piece.slot →
      Carries table x.piece (memory.taskList task) ∧
        ((memory.taskList task).splittedPtr ≠ none → x.body = true)
  unused : ∀ task : TaskPtr cfg, memory.currIdx ≤ task.val →
    memory.taskList task = table.entry task
  myPtr : ∀ task : TaskPtr cfg, task.val < memory.currIdx →
    (memory.taskList task).myPtr = creates task
  tails : memory.splits.map (fun split => split.2.val) =
    (List.range' cfg.numOfTask (memory.currIdx - cfg.numOfTask)).reverse
  bodies : memory.splits.map (fun split => split.1.val) =
    (plan.placed.filter Placement.body).map fun x => x.piece.slot
  printed : ∀ message ∈ memory.printed,
    ∃ number, message = .heavyButAffordable number

variable {creates : ℕ → Option TaskHandle} {table : TaskTable cfg}
  {P : Problem (CorePtr cfg)} {stack : TaskStack cfg} {memory : Memory cfg}
  {plan : Plan (CorePtr cfg)}

namespace Represents

theorem slot_lt (hrep : Represents creates table P stack memory plan) :
    (∀ p ∈ plan.queue, p.slot < memory.currIdx) ∧
      ∀ x ∈ plan.placed ++ P.given, x.piece.slot < memory.currIdx := by
  have hmem : ∀ slot ∈ slotsInUse P plan, slot < memory.currIdx := by
    intro slot hslot
    exact List.mem_range.mp (hrep.slots_perm.mem_iff.mp hslot)
  constructor
  · intro p hp
    exact hmem _ (List.mem_append_left _ (List.mem_map_of_mem hp))
  · intro x hx
    exact hmem _ (List.mem_append_right _
      (List.mem_map_of_mem (f := fun x => x.piece.slot) hx))

theorem nodup (hrep : Represents creates table P stack memory plan) :
    (slotsInUse P plan).Nodup :=
  hrep.slots_perm.nodup_iff.mpr List.nodup_range

/-- There is a body for every extra slot in use. -/
theorem bodies_length (hrep : Represents creates table P stack memory plan) :
    cfg.numOfTask + (plan.placed.filter Placement.body).length =
      memory.currIdx := by
  have htails := congrArg List.length hrep.tails
  have hbodies := congrArg List.length hrep.bodies
  rw [List.length_map] at htails hbodies
  rw [List.length_reverse, List.length_range'] at htails
  rw [List.length_map] at hbodies
  have hge := hrep.currIdx_ge
  omega

theorem guard_eq (hrep : Represents creates table P stack memory plan) :
    stack.isEmpty = plan.queue.isEmpty := by
  have hqueue := hrep.queue
  cases hentries : stack.entries with
  | nil =>
      rw [hentries, List.map_nil, eq_comm, List.map_eq_nil_iff] at hqueue
      rw [(Stack.isEmpty_eq_true_iff stack).mpr hentries, hqueue]
      rfl
  | cons task rest =>
      have hne : stack.entries ≠ [] := hentries ▸ List.cons_ne_nil _ _
      rw [hentries] at hqueue
      rw [(Stack.isEmpty_eq_false_iff stack).mpr hne]
      cases hplan : plan.queue with
      | nil => simp [hplan] at hqueue
      | cons piece pieces => rfl

/-- The top of the stack is the head of the queue. -/
theorem top (hrep : Represents creates table P stack memory plan)
    (hne : plan.queue ≠ []) :
    ∃ task rest piece pieces, stack.entries = task :: rest ∧
      plan.queue = piece :: pieces ∧ task.val = piece.slot ∧
      rest.map Fin.val = pieces.map Piece.slot := by
  have hqueue := hrep.queue
  cases hplan : plan.queue with
  | nil => exact absurd hplan hne
  | cons piece pieces =>
      cases hentries : stack.entries with
      | nil => simp [hplan, hentries] at hqueue
      | cons task rest =>
          rw [hplan, hentries, List.map_cons, List.map_cons,
            List.cons.injEq] at hqueue
          exact ⟨task, rest, piece, pieces, rfl, rfl, hqueue.1, hqueue.2⟩

/-- The placement behind a call of `Assign_task`. -/
theorem placement_of_assigned
    (hrep : Represents creates table P stack memory plan)
    {entry : TaskPtr cfg × CorePtr cfg} (hentry : entry ∈ memory.assigned) :
    ∃ x ∈ plan.placed ++ P.given, entry.1.val = x.piece.slot ∧
      entry.2 = x.core := by
  have hmem : Prod.map Fin.val id entry ∈
      memory.assigned.map (Prod.map Fin.val id) := List.mem_map_of_mem hentry
  rw [hrep.assigned] at hmem
  obtain ⟨x, hx, heq⟩ := List.mem_map.mp hmem
  exact ⟨x, hx, (congrArg Prod.fst heq).symm, (congrArg Prod.snd heq).symm⟩

/-- The call of `Assign_task` behind a placement. -/
theorem assigned_of_placement
    (hrep : Represents creates table P stack memory plan)
    {x : Placement (CorePtr cfg)} (hx : x ∈ plan.placed ++ P.given)
    {task : TaskPtr cfg} (htask : task.val = x.piece.slot) :
    (task, x.core) ∈ memory.assigned := by
  have hmem : (x.piece.slot, x.core) ∈
      memory.assigned.map (Prod.map Fin.val id) := by
    rw [hrep.assigned]
    exact List.mem_map_of_mem (f := fun x => (x.piece.slot, x.core)) hx
  obtain ⟨⟨other, core⟩, hentry, heq⟩ := List.mem_map.mp hmem
  obtain ⟨hslot, hcore⟩ := Prod.mk.inj heq
  obtain rfl : other = task := Fin.ext (hslot.trans htask.symm)
  obtain rfl : core = x.core := hcore
  exact hentry

/-- A slot is placed once. -/
theorem placement_eq (hrep : Represents creates table P stack memory plan)
    {x y : Placement (CorePtr cfg)} (hx : x ∈ plan.placed ++ P.given)
    (hy : y ∈ plan.placed ++ P.given) (hslot : x.piece.slot = y.piece.slot) :
    x = y := by
  have hnodup := (List.nodup_append.mp hrep.nodup).2.1
  exact List.inj_on_of_nodup_map hnodup hx hy hslot

/-- A sum over the calls of `Assign_task` for one core, taken over the
placements. -/
theorem sum_assigned (hrep : Represents creates table P stack memory plan)
    {value : TaskPtr cfg → ℚ} {share : Placement (CorePtr cfg) → ℚ}
    (hshare : ∀ task : TaskPtr cfg, ∀ x ∈ plan.placed ++ P.given,
      task.val = x.piece.slot → value task = share x) (core : CorePtr cfg) :
    (memory.assigned.map fun entry =>
        if entry.2 = core then value entry.1 else 0).sum =
      ((plan.placed ++ P.given).map fun x =>
        if x.core = core then share x else 0).sum := by
  let slotValue : ℕ → ℚ := fun slot =>
    if hslot : slot < cfg.maxNumTasks then value ⟨slot, hslot⟩ else 0
  have hassigned := congrArg (List.map fun entry : ℕ × CorePtr cfg =>
    if entry.2 = core then slotValue entry.1 else 0) hrep.assigned
  rw [List.map_map, List.map_map] at hassigned
  have hplaced : (plan.placed ++ P.given).map
      ((fun entry : ℕ × CorePtr cfg =>
        if entry.2 = core then slotValue entry.1 else 0) ∘
          fun x => (x.piece.slot, x.core)) =
      (plan.placed ++ P.given).map fun x =>
        if x.core = core then share x else 0 := by
    apply List.map_congr_left
    intro x hx
    have hslot := (hrep.slot_lt.2 x hx).trans_le hrep.currIdx_le
    have hvalue : slotValue x.piece.slot = share x :=
      (dif_pos hslot).trans (hshare ⟨_, hslot⟩ x hx rfl)
    rw [Function.comp_apply, hvalue]
  rw [← hplaced, ← hassigned]
  congr 1
  apply List.map_congr_left
  intro entry _
  have hvalue : slotValue entry.1 = value entry.1 := dif_pos entry.1.isLt
  rw [Function.comp_apply, Prod.map_fst, hvalue]
  rfl

end Represents

/-! ## Placing a piece -/

section Place

variable {task : TaskPtr cfg} {rest : List (TaskPtr cfg)} {core : CorePtr cfg}
  {placed : List (Placement (CorePtr cfg))} {piece : Piece}
  {pieces : List Piece}

/-- A piece that fits. -/
theorem Represents.fit
    (hrep : Represents creates table P stack memory ⟨placed, piece :: pieces⟩)
    (hentries : stack.entries = task :: rest) :
    Represents creates table P stack.pop.2 (assignTask task core memory)
      ⟨⟨piece, core, false⟩ :: placed, pieces⟩ := by
  have hqueue := hrep.queue
  rw [hentries, List.map_cons, List.map_cons, List.cons.injEq] at hqueue
  obtain ⟨htask, hrest⟩ := hqueue
  obtain ⟨hcarries, hwhole⟩ :=
    hrep.waiting task piece (List.mem_cons_self ..) htask
  constructor
  · rw [entries_pop, hentries]
    exact hrest
  · rw [assigned_assignTask, List.map_cons, hrep.assigned]
    simp [htask]
  · intro other
    rw [coreList_assignTask, hrep.coreList, hcarries.utilization]
    by_cases hother : other = core
    · subst hother
      rw [Function.update_self]
      simp only [Problem.load, coreLoad_cons, if_true, CoreInfo.mk.injEq,
        true_and, and_true]
      ring
    · rw [Function.update_of_ne hother, hrep.coreList]
      simp [Problem.load, Ne.symm hother]
  · have hslots := hrep.slots_perm
    simp only [slotsInUse, List.cons_append, List.map_cons]
      at hslots ⊢
    exact List.perm_middle.trans hslots
  · exact hrep.currIdx_ge
  · exact hrep.currIdx_le
  · exact hrep.created
  · exact fun other p hp => hrep.waiting other p (List.mem_cons_of_mem _ hp)
  · intro other x hx hslot
    rcases List.mem_cons.mp hx with rfl | hx
    · obtain rfl : other = task := Fin.ext (hslot.trans htask.symm)
      exact ⟨hcarries, fun hsplit => absurd hwhole hsplit⟩
    · exact hrep.placed other x hx hslot
  · exact hrep.unused
  · exact hrep.myPtr
  · exact hrep.tails
  · rw [splits_assignTask, hrep.bodies]
    simp
  · exact hrep.printed

theorem Carries.body {info : TaskInfo} (hcarries : Carries table piece info)
    (room : ℚ) (successor : Option TaskHandle) :
    Carries table { piece with load := room }
      (bodyInfo room successor info) := ⟨rfl, hcarries.origin⟩

theorem Carries.tail {info : TaskInfo} (hcarries : Carries table piece info)
    (room : ℚ) (handle : Option TaskHandle) (slot : TaskInfo) (index : ℕ) :
    Carries table ⟨index, piece.task, piece.load - room⟩
      (tailInfo room handle info slot) :=
  ⟨by rw [← hcarries.utilization]; rfl, hcarries.origin⟩

/-- A piece that is split: the body gets the load `room`. -/
theorem Represents.split {room : ℚ}
    (hrep : Represents creates table P stack memory ⟨placed, piece :: pieces⟩)
    (hentries : stack.entries = task :: rest)
    (hslot : memory.currIdx < cfg.maxNumTasks)
    (hroom : stack.pop.2.entries.length < cfg.maxNumTasks) :
    Represents creates table P (stack.pop.2.push ⟨memory.currIdx, hslot⟩)
      (assignTask task core (splitMemory creates task ⟨memory.currIdx, hslot⟩
        core room { memory with currIdx := memory.currIdx + 1 }))
      ⟨⟨{ piece with load := room }, core, true⟩ :: placed,
        ⟨memory.currIdx, piece.task, piece.load - room⟩ :: pieces⟩ := by
  have hqueue := hrep.queue
  rw [hentries, List.map_cons, List.map_cons, List.cons.injEq] at hqueue
  obtain ⟨htask, hrest⟩ := hqueue
  obtain ⟨hcarries, hwhole⟩ :=
    hrep.waiting task piece (List.mem_cons_self ..) htask
  obtain ⟨hwaiting, hplaced⟩ := hrep.slot_lt
  have hnodup := hrep.nodup
  rw [slotsInUse, List.map_cons, List.cons_append, List.nodup_cons] at hnodup
  -- the new slot is none of those in use
  have hfresh : (⟨memory.currIdx, hslot⟩ : TaskPtr cfg) ≠ task := by
    have hless := hwaiting piece (List.mem_cons_self ..)
    exact fun heq => (htask ▸ hless).ne (congrArg Fin.val heq).symm
  have hframe : ∀ other : TaskPtr cfg, other.val ≠ piece.slot →
      other.val ≠ memory.currIdx →
      (splitMemory creates task ⟨memory.currIdx, hslot⟩ core room
        { memory with currIdx := memory.currIdx + 1 }).taskList other =
          memory.taskList other := by
    intro other hother hcurr
    refine taskList_splitMemory_of_ne creates task _ core room _ ?_ ?_
    · exact fun heq => hother (heq ▸ htask)
    · exact fun heq => hcurr (congrArg Fin.val heq)
  have hunused := hrep.unused ⟨memory.currIdx, hslot⟩ le_rfl
  have htail := taskList_splitMemory_tail creates task ⟨memory.currIdx, hslot⟩
    core room { memory with currIdx := memory.currIdx + 1 } hfresh
  have hbody := taskList_splitMemory_body creates task ⟨memory.currIdx, hslot⟩
    core room { memory with currIdx := memory.currIdx + 1 }
  constructor
  · rw [Stack.entries_push _ hroom, entries_pop, hentries]
    simp [hrest]
  · rw [assigned_assignTask, assigned_splitMemory]
    change _ :: memory.assigned.map _ = _
    rw [hrep.assigned]
    simp [htask]
  · intro other
    rw [coreList_assignTask, hbody, coreList_splitMemory]
    simp only [hrep.coreList]
    by_cases hother : other = core
    · subst hother
      rw [Function.update_self]
      simp only [bodyInfo, Problem.load, coreLoad_cons, if_true,
        CoreInfo.mk.injEq, true_and, and_true]
      ring
    · rw [Function.update_of_ne hother]
      refine (hrep.coreList other).trans ?_
      simp [Problem.load, Ne.symm hother]
  · have hslots := hrep.slots_perm
    simp only [slotsInUse, List.cons_append, List.map_cons] at hslots ⊢
    rw [currIdx_assignTask, currIdx_splitMemory, List.range_succ]
    refine List.Perm.trans (List.Perm.cons _ ?_)
      (List.perm_append_singleton _ _).symm
    exact List.perm_middle.trans hslots
  · exact hrep.currIdx_ge.trans (Nat.le_succ _)
  · exact hslot
  · rw [created_assignTask, created_splitMemory, currIdx_assignTask,
      currIdx_splitMemory]
    exact congrArg (· + 1) hrep.created
  · intro other p hp hother
    rw [taskList_assignTask]
    rcases List.mem_cons.mp hp with rfl | hp
    · obtain rfl : other = ⟨memory.currIdx, hslot⟩ := Fin.ext hother
      rw [htail]
      refine ⟨hcarries.tail room _ _ _, ?_⟩
      change (memory.taskList ⟨memory.currIdx, hslot⟩).splittedPtr = none
      rw [hunused, table.splittedPtr_eq]
    · have hless := hwaiting p (List.mem_cons_of_mem _ hp)
      have hne : p.slot ≠ piece.slot := by
        intro heq
        exact hnodup.1 (heq ▸ List.mem_append_left _ (List.mem_map_of_mem hp))
      rw [hframe other (hother ▸ hne) (hother ▸ hless.ne)]
      exact hrep.waiting other p (List.mem_cons_of_mem _ hp) hother
  · intro other x hx hother
    rw [taskList_assignTask]
    rcases List.mem_cons.mp hx with rfl | hx
    · obtain rfl : other = task := Fin.ext (hother.trans htask.symm)
      rw [hbody]
      exact ⟨hcarries.body room _, fun _ => rfl⟩
    · have hless := hplaced x hx
      have hne : x.piece.slot ≠ piece.slot := by
        intro heq
        exact hnodup.1 (heq ▸ List.mem_append_right _
          (List.mem_map_of_mem (f := fun x => x.piece.slot) hx))
      rw [hframe other (hother ▸ hne) (hother ▸ hless.ne)]
      exact hrep.placed other x hx hother
  · intro other hother
    have hless := hwaiting piece (List.mem_cons_self ..)
    have hge : memory.currIdx + 1 ≤ other.val := hother
    rw [taskList_assignTask, hframe other (by omega) (by omega)]
    exact hrep.unused other (by omega)
  · intro other hother
    have hle : other.val < memory.currIdx + 1 := hother
    rw [taskList_assignTask]
    by_cases hcurr : other.val = memory.currIdx
    · obtain rfl : other = ⟨memory.currIdx, hslot⟩ := Fin.ext hcurr
      rw [htail]
      change (creates memory.created <|>
        (memory.taskList ⟨memory.currIdx, hslot⟩).myPtr) = _
      rw [hrep.created, hunused, table.myPtr_eq]
      cases creates memory.currIdx <;> rfl
    · by_cases hsame : other = task
      · subst hsame
        rw [hbody]
        exact hrep.myPtr other (by omega)
      · rw [hframe other (fun heq => hsame (Fin.ext (heq.trans htask.symm)))
          hcurr]
        exact hrep.myPtr other (by omega)
  · rw [splits_assignTask, splits_splitMemory, currIdx_assignTask,
      currIdx_splitMemory]
    change _ :: memory.splits.map _ = _
    have hge := hrep.currIdx_ge
    rw [hrep.tails, Nat.succ_sub hge, List.range'_concat,
      List.reverse_append, one_mul, Nat.add_sub_cancel' hge]
    rfl
  · rw [splits_assignTask, splits_splitMemory]
    change _ :: memory.splits.map _ = _
    rw [hrep.bodies]
    simp [htask]
  · exact hrep.printed

end Place

/-- Placing the next piece on `core`, in memory and in the plan. -/
inductive PlacesIn (creates : ℕ → Option TaskHandle) (P : Problem (CorePtr cfg))
    (core : CorePtr cfg) (stack : TaskStack cfg) (memory : Memory cfg) :
    Plan (CorePtr cfg) → TaskStack cfg → Memory cfg → Plan (CorePtr cfg) → Prop
  | fit {task : TaskPtr cfg} {rest : List (TaskPtr cfg)}
      {placed : List (Placement (CorePtr cfg))} {piece : Piece}
      {pieces : List Piece} (hentries : stack.entries = task :: rest)
      (hfit : P.load ⟨placed, piece :: pieces⟩ core + piece.load ≤ P.bound) :
      PlacesIn creates P core stack memory ⟨placed, piece :: pieces⟩
        stack.pop.2 (assignTask task core memory)
        ⟨⟨piece, core, false⟩ :: placed, pieces⟩
  | split {task : TaskPtr cfg} {rest : List (TaskPtr cfg)}
      {placed : List (Placement (CorePtr cfg))} {piece : Piece}
      {pieces : List Piece} {room : ℚ}
      (hentries : stack.entries = task :: rest)
      (hslot : memory.currIdx < cfg.maxNumTasks)
      (hroom : room = P.bound - P.load ⟨placed, piece :: pieces⟩ core)
      (hover : P.bound < P.load ⟨placed, piece :: pieces⟩ core + piece.load) :
      PlacesIn creates P core stack memory ⟨placed, piece :: pieces⟩
        (stack.pop.2.push ⟨memory.currIdx, hslot⟩)
        (assignTask task core
          (splitMemory creates task ⟨memory.currIdx, hslot⟩ core room
            { memory with currIdx := memory.currIdx + 1 }))
        ⟨⟨{ piece with load := room }, core, true⟩ :: placed,
          ⟨memory.currIdx, piece.task, piece.load - room⟩ :: pieces⟩

section PlacesIn

variable {core : CorePtr cfg} {stack' : TaskStack cfg} {memory' : Memory cfg}
  {plan' : Plan (CorePtr cfg)}

theorem PlacesIn.places
    (hplaces : PlacesIn creates P core stack memory plan stack' memory' plan') :
    P.Places core plan plan' := by
  cases hplaces with
  | fit _ hfit => exact .fit hfit
  | split _ _ hroom hover =>
      subst hroom
      exact .split hover

/-- Popping leaves room for the tail. -/
theorem room_of_entries {task : TaskPtr cfg} {rest : List (TaskPtr cfg)}
    (hentries : stack.entries = task :: rest) :
    stack.pop.2.entries.length < cfg.maxNumTasks := by
  have hbounded := stack.bounded
  rw [entries_pop, hentries, List.tail_cons]
  rwa [hentries, List.length_cons] at hbounded

theorem PlacesIn.represents
    (hrep : Represents creates table P stack memory plan)
    (hplaces : PlacesIn creates P core stack memory plan stack' memory' plan') :
    Represents creates table P stack' memory' plan' := by
  cases hplaces with
  | fit hentries _ => exact hrep.fit hentries
  | split hentries hslot _ _ =>
      exact hrep.split hentries hslot (room_of_entries hentries)

/-- The end of an iteration places the next piece, unless the slots run out. -/
theorem assignOrSplit_cases {coreManager : CoreStack cfg}
    (hrep : Represents creates table P stack memory plan)
    (hbound : P.bound = cfg.utilizationBound)
    (hcoreBound : coreManager.utilizationBound = cfg.utilizationBound)
    {task : TaskPtr cfg} {rest : List (TaskPtr cfg)} {piece : Piece}
    {pieces : List Piece} (hentries : stack.entries = task :: rest)
    (hqueue : plan.queue = piece :: pieces) (htask : task.val = piece.slot)
    (core : CorePtr cfg) :
    (P.bound < P.load plan core + piece.load ∧
        memory.currIdx = cfg.maxNumTasks ∧
        assignOrSplit creates task core coreManager stack.pop.2 memory =
          .error .nullTask) ∨
      ∃ stack' memory' plan',
        PlacesIn creates P core stack memory plan stack' memory' plan' ∧
        assignOrSplit creates task core coreManager stack.pop.2 memory =
          .ok (stack', memory') := by
  obtain ⟨placed, queue⟩ := plan
  obtain rfl : queue = piece :: pieces := hqueue
  have hpiece := (hrep.waiting task piece (List.mem_cons_self ..) htask).1
  have hload : (memory.coreList core).utilization =
      P.load ⟨placed, piece :: pieces⟩ core := by
    rw [hrep.coreList]
  by_cases hfits : P.load ⟨placed, piece :: pieces⟩ core + piece.load ≤ P.bound
  · right
    refine ⟨_, _, _, .fit hentries hfits, assignOrSplit_of_fits creates ?_⟩
    rwa [hload, hpiece.utilization, ← hbound]
  · have hover := lt_of_not_ge hfits
    have hover' : cfg.utilizationBound < (memory.coreList core).utilization +
        (memory.taskList task).utilization := by
      rwa [hload, hpiece.utilization, ← hbound]
    by_cases hslot : memory.currIdx < cfg.maxNumTasks
    · right
      have hless := hrep.slot_lt.1 piece (List.mem_cons_self ..)
      have hne : (⟨memory.currIdx, hslot⟩ : TaskPtr cfg) ≠ task := fun heq =>
        (htask ▸ hless).ne (congrArg Fin.val heq).symm
      refine ⟨_, _, _, .split hentries hslot ?_ hover,
        assignOrSplit_of_slot creates hover' hslot hne
          (room_of_entries hentries) hcoreBound⟩
      rw [hload, hbound]
    · left
      exact ⟨hover, le_antisymm hrep.currIdx_le (not_lt.mp hslot),
        assignOrSplit_of_no_slot creates hover' hslot⟩

end PlacesIn

/-! ## The SPA2 loop -/

/-- A state at the head of the normal-assign loop of the SPA2 branch. -/
structure Spa2State (creates : ℕ → Option TaskHandle) (table : TaskTable cfg)
    (state : State cfg) (plan : Plan (CorePtr cfg)) : Prop where
  represents : Represents creates table (spa2Problem table) state.uq
    state.memory plan
  reaches : (spa2Problem table).Reaches plan
  free : state.coreManager.list.entries = (prepare table cfg.numOfTask).free
  coreBound : state.coreManager.utilizationBound = cfg.utilizationBound
  reserve : state.preAssignedCore.list.entries = (spa2Problem table).reserve

/-- What an iteration of the SPA2 loop does. -/
inductive Spa2Iteration (creates : ℕ → Option TaskHandle)
    (table : TaskTable cfg) (state : State cfg) (plan : Plan (CorePtr cfg)) :
    Except Fault (Flow (State cfg)) → Prop
  | noCore (hnormal : (spa2Problem table).normal = ∅) :
      Spa2Iteration creates table state plan (.error .outOfBounds)
  | noReserve (hnormal : (spa2Problem table).normal.Nonempty)
      (hfull : ∀ core ∈ (spa2Problem table).normal,
        cfg.utilizationBound ≤ (spa2Problem table).load plan core)
      (hreserve : (spa2Problem table).reserve = []) :
      Spa2Iteration creates table state plan (.error .nullCore)
  | exhausted {core : CorePtr cfg} {after : State cfg}
      (hnormal : (spa2Problem table).normal.Nonempty)
      (hfull : ∀ core ∈ (spa2Problem table).normal,
        cfg.utilizationBound ≤ (spa2Problem table).load plan core)
      (hhead : (spa2Problem table).reserve.head? = some core)
      (hcore : cfg.utilizationBound ≤ (spa2Problem table).load plan core)
      (hmemory : after.memory =
        state.memory.log (.printf .allProcessorsFullyUtilized))
      (huq : after.uq = state.uq.pop.2) :
      Spa2Iteration creates table state plan (.ok (.leave after))
  | noSlot {core : CorePtr cfg} {piece : Piece} {pieces : List Piece}
      (hqueue : plan.queue = piece :: pieces)
      (htarget : (spa2Problem table).Target plan core)
      (hover : cfg.utilizationBound <
        (spa2Problem table).load plan core + piece.load)
      (hslot : state.memory.currIdx = cfg.maxNumTasks) :
      Spa2Iteration creates table state plan (.error .nullTask)
  | places {core : CorePtr cfg} {after : State cfg} {plan' : Plan (CorePtr cfg)}
      (htarget : (spa2Problem table).Target plan core)
      (hplaces : PlacesIn creates (spa2Problem table) core state.uq state.memory
        plan after.uq after.memory plan')
      (hstate : Spa2State creates table after plan') :
      Spa2Iteration creates table state plan (.ok (.next after))

section Spa2

variable {state : State cfg}

namespace Spa2State

theorem normal_eq : (spa2Problem table).normal =
    (prepare table cfg.numOfTask).free.toFinset := rfl

theorem mem_normal (hstate : Spa2State creates table state plan)
    (core : CorePtr cfg) :
    core ∈ (spa2Problem table).normal ↔
      core ∈ state.coreManager.list.entries := by
  rw [hstate.free, normal_eq, List.mem_toFinset]

theorem utilization (hstate : Spa2State creates table state plan)
    (core : CorePtr cfg) : (state.memory.coreList core).utilization =
      (spa2Problem table).load plan core := by
  rw [hstate.represents.coreList]

/-- The core that is chosen decides how the iteration goes on; a reserve core
goes back on its stack. -/
theorem of_select (hstate : Spa2State creates table state plan)
    {task : TaskPtr cfg} {rest : List (TaskPtr cfg)} {piece : Piece}
    {pieces : List Piece} (hentries : state.uq.entries = task :: rest)
    (hqueue : plan.queue = piece :: pieces) (htask : task.val = piece.slot)
    {minCore core : CorePtr cfg}
    (hmin : getMinCore state.coreManager state.memory.coreList = .ok minCore)
    {preAssignedCore : CoreStack cfg}
    (hselect : selectCore minCore state.preAssignedCore state.memory =
      .ok (some core, preAssignedCore, state.memory))
    (hback : ∀ memory : Memory cfg,
      (if decide (core ∈ (spa2Problem table).reserve) then
        pushCore core preAssignedCore memory
      else (preAssignedCore, memory)) = (state.preAssignedCore, memory))
    (htarget : (spa2Problem table).Target plan core) :
    Spa2Iteration creates table state plan (normalAssignBody creates state) := by
  have hpop : popTask state.uq state.memory =
      (some task, state.uq.pop.2, state.memory) := popEntry_of_cons hentries
  rcases assignOrSplit_cases hstate.represents rfl hstate.coreBound hentries
    hqueue htask core with ⟨hover, hslot, hrun⟩ | ⟨uq, memory, plan', hplaces, hrun⟩
  · have hbody : normalAssignBody creates state = .error .nullTask := by
      simp only [normalAssignBody, hmin, hpop, hselect, hrun]
    rw [hbody]
    exact .noSlot hqueue htarget hover hslot
  · have hrep := hplaces.represents hstate.represents
    have hbody : normalAssignBody creates state =
        .ok (.next { state with memory, uq }) := by
      have hpush := hback memory
      simp only [normalAssignBody, hmin, hpop, hselect, hrun, hrep.coreList]
      split
      · rename_i hreserve
        rw [if_pos hreserve] at hpush
        rw [hpush]
      · rename_i hreserve
        rw [if_neg hreserve] at hpush
        rw [(Prod.mk.inj hpush).1]
    rw [hbody]
    refine .places htarget hplaces ⟨hrep, ?_, hstate.free, hstate.coreBound,
      hstate.reserve⟩
    exact hstate.reaches.tail ⟨core, htarget, hplaces.places⟩

/-- When the least loaded ordinary core is full, all of them are. -/
theorem full_of_least (hstate : Spa2State creates table state plan)
    {minCore : CorePtr cfg}
    (hleast : ∀ other ∈ state.coreManager.list.entries,
      (state.memory.coreList minCore).utilization ≤
        (state.memory.coreList other).utilization)
    (hfull : cfg.utilizationBound ≤
      (state.memory.coreList minCore).utilization) :
    ∀ core ∈ (spa2Problem table).normal,
      cfg.utilizationBound ≤ (spa2Problem table).load plan core := by
  intro core hcore
  rw [← hstate.utilization]
  exact hfull.trans (hleast core ((hstate.mem_normal core).mp hcore))

/-- An iteration that finds every ordinary core full. -/
theorem iteration_of_full (hstate : Spa2State creates table state plan)
    {task : TaskPtr cfg} {rest : List (TaskPtr cfg)} {piece : Piece}
    {pieces : List Piece} (hentries : state.uq.entries = task :: rest)
    (hqueue : plan.queue = piece :: pieces) (htask : task.val = piece.slot)
    {minCore : CorePtr cfg}
    (hmin : getMinCore state.coreManager state.memory.coreList = .ok minCore)
    (hmem : minCore ∈ state.coreManager.list.entries)
    (hleast : ∀ other ∈ state.coreManager.list.entries,
      (state.memory.coreList minCore).utilization ≤
        (state.memory.coreList other).utilization)
    (hfull : cfg.utilizationBound ≤
      (state.memory.coreList minCore).utilization) :
    Spa2Iteration creates table state plan (normalAssignBody creates state) := by
  have hall := hstate.full_of_least hleast hfull
  have hnormal : (spa2Problem table).normal.Nonempty :=
    ⟨minCore, (hstate.mem_normal minCore).mpr hmem⟩
  have hpop : popTask state.uq state.memory =
      (some task, state.uq.pop.2, state.memory) := popEntry_of_cons hentries
  cases hreserve : state.preAssignedCore.list.entries with
  | nil =>
      have hbody : normalAssignBody creates state = .error .nullCore := by
        simp only [normalAssignBody, hmin, hpop, selectCore, if_pos hfull,
          popCore, popEntry_of_nil hreserve]
      rw [hbody]
      exact .noReserve hnormal hall (hstate.reserve ▸ hreserve)
  | cons core others =>
      have hhead : (spa2Problem table).reserve.head? = some core := by
        rw [← hstate.reserve, hreserve]
        rfl
      have hselect : selectCore minCore state.preAssignedCore state.memory =
          if cfg.utilizationBound ≤
              (state.memory.coreList core).utilization then
            .ok (none,
              { state.preAssignedCore with
                list := state.preAssignedCore.list.pop.2 },
              state.memory.log (.printf .allProcessorsFullyUtilized))
          else .ok (some core,
            { state.preAssignedCore with
              list := state.preAssignedCore.list.pop.2 }, state.memory) := by
        simp only [selectCore, if_pos hfull, popCore,
          popEntry_of_cons hreserve]
      by_cases hcore : cfg.utilizationBound ≤
          (state.memory.coreList core).utilization
      · rw [if_pos hcore] at hselect
        have hbody : normalAssignBody creates state = .ok (.leave { state with
            memory := state.memory.log (.printf .allProcessorsFullyUtilized)
            uq := state.uq.pop.2
            preAssignedCore := { state.preAssignedCore with
              list := state.preAssignedCore.list.pop.2 } }) := by
          simp only [normalAssignBody, hmin, hpop, hselect]
        rw [hbody]
        rw [hstate.utilization] at hcore
        exact .exhausted hnormal hall hhead hcore rfl rfl
      · rw [if_neg hcore] at hselect
        rw [hstate.utilization] at hcore
        refine hstate.of_select hentries hqueue htask hmin hselect ?_
          (.reserve hall hhead (lt_of_not_ge hcore))
        intro memory
        have hroom : state.preAssignedCore.list.pop.2.entries.length <
            cfg.numberOfCores := by
          have hbounded := state.preAssignedCore.list.bounded
          rw [entries_pop, hreserve, List.tail_cons]
          rwa [hreserve, List.length_cons] at hbounded
        rw [if_pos (decide_eq_true (List.mem_of_mem_head? hhead)), pushCore,
          pushEntry_of_room hroom, Stack.push_pop hreserve]

/-- Every iteration is one of the five kinds. -/
theorem iteration (hstate : Spa2State creates table state plan)
    (hguard : (normalAssign creates).guard state = true) :
    Spa2Iteration creates table state plan (normalAssignBody creates state) := by
  have hne : plan.queue ≠ [] := by
    simpa [normalAssign, hstate.represents.guard_eq] using hguard
  obtain ⟨task, rest, piece, pieces, hentries, hqueue, htask, _⟩ :=
    hstate.represents.top hne
  by_cases hnone : state.coreManager.list.entries = []
  · have hbody : normalAssignBody creates state = .error .outOfBounds := by
      simp only [normalAssignBody, getMinCore_of_nil hnone]
    rw [hbody]
    apply Spa2Iteration.noCore
    rw [normal_eq, ← hstate.free, hnone, List.toFinset_nil]
  · obtain ⟨minCore, hmin, hmem, hleast⟩ :=
      getMinCore_of_ne_nil hnone state.memory.coreList
    by_cases hfull : cfg.utilizationBound ≤
        (state.memory.coreList minCore).utilization
    · exact hstate.iteration_of_full hentries hqueue htask hmin hmem hleast
        hfull
    · have hnormal := (hstate.mem_normal minCore).mpr hmem
      refine hstate.of_select hentries hqueue htask hmin
        (by rw [selectCore, if_neg hfull]) ?_ (.normal hnormal ?_ ?_)
      · intro memory
        have hreserve : minCore ∉ (spa2Problem table).reserve := fun hmem' =>
          (spa2Problem table).apart minCore hmem' hnormal
        rw [if_neg (by simpa using hreserve)]
      · rw [← hstate.utilization]
        exact lt_of_not_ge hfull
      · intro other hother
        rw [← hstate.utilization, ← hstate.utilization]
        exact hleast other ((hstate.mem_normal other).mp hother)

end Spa2State

end Spa2

end PicoSched.Refinement
