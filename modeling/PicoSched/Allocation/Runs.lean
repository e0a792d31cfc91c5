import PicoSched.Allocation.Refinement

/-!
# Runs of the two branches

Both loops start from memory that represents the untouched filling problem,
so every state at a loop head represents a plan that the phase reaches.
-/

namespace PicoSched.Refinement

open BoundedStack Filling Loop TaskManager Main PreAssign

variable {cfg : Config} {creates : ℕ → Option TaskHandle}
  {table : TaskTable cfg} {state : State cfg} {plan : Plan (CorePtr cfg)}

/-! ## The start -/

/-- The record of a declared task after `init_task`. -/
theorem carries_initialInfo (creates : ℕ → Option TaskHandle) {task : TaskPtr cfg}
    (htask : task.val < cfg.numOfTask) {p : Piece}
    (hpiece : p = piece table p.task) (hslot : task.val = p.slot) :
    Carries table p (initialInfo creates table cfg.numOfTask task) ∧
      (initialInfo creates table cfg.numOfTask task).splittedPtr = none := by
  have hval : p.task = task.val := by
    rw [hslot, hpiece]
    rfl
  rw [hval] at hpiece
  subst hpiece
  rw [initialInfo, if_pos htask]
  refine ⟨⟨rfl, ⟨task.val, htask⟩, rfl, rfl, rfl, rfl⟩, ?_⟩
  exact table.splittedPtr_eq task

theorem spa2State_start {start : State cfg}
    (hstart : Chosen creates table cfg.numOfTask start) :
    Spa2State creates table start ⟨[], (spa2Problem table).pieces⟩ := by
  refine ⟨?_, .refl, hstart.free, hstart.coreBound, hstart.reserve⟩
  constructor
  · exact hstart.uq
  · rw [hstart.assigned]
    rfl
  · intro core
    rw [hstart.coreList]
    simp [Problem.load, spa2Problem]
  · rw [hstart.currIdx]
    exact prepare_perm table cfg.numOfTask
  · exact hstart.currIdx.ge
  · rw [hstart.currIdx]
    exact cfg.numOfTask_le_maxNumTasks
  · rw [hstart.created, hstart.currIdx]
  · intro task p hp hslot
    obtain ⟨hpiece, hless, _⟩ := mem_waiting p hp
    rw [hstart.taskList]
    refine carries_initialInfo creates ?_ hpiece hslot
    rw [hslot, hpiece]
    exact hless
  · intro task x hx hslot
    obtain ⟨_, hpiece, hless, _⟩ := mem_given x hx
    have htask : task.val < cfg.numOfTask := by
      rw [hslot, hpiece]
      exact hless
    rw [hstart.taskList]
    have hcarries := carries_initialInfo creates htask hpiece hslot
    exact ⟨hcarries.1, fun hsplit => absurd hcarries.2 hsplit⟩
  · intro task hunused
    rw [hstart.currIdx] at hunused
    rw [hstart.taskList, initialInfo, if_neg (not_lt.mpr hunused)]
  · intro task hused
    rw [hstart.currIdx] at hused
    rw [hstart.taskList, initialInfo, if_pos hused]
  · rw [hstart.splits, hstart.currIdx, Nat.sub_self]
    rfl
  · rw [hstart.splits]
    rfl
  · exact hstart.printed

/-- A state at the head of the loop of the `#else` branch. -/
structure ElseState (creates : ℕ → Option TaskHandle) (table : TaskTable cfg)
    (state : State cfg) (plan : Plan (CorePtr cfg)) : Prop where
  represents : Represents creates table (elseProblem table) state.taskManager
    state.memory plan
  reaches : (elseProblem table).Reaches plan
  free : state.coreManager.list.entries =
    (List.finRange cfg.numberOfCores).reverse
  coreBound : state.coreManager.utilizationBound = cfg.utilizationBound

theorem elseState_start {ready : State cfg}
    (hready : Chosen creates table 0 ready) :
    ElseState creates table ready ⟨[], (elseProblem table).pieces⟩ := by
  have hslots : (elseProblem table).pieces.map Piece.slot =
      (List.range cfg.numOfTask).reverse := by
    rw [elseProblem, List.map_map]
    exact List.map_id _
  refine ⟨?_, .refl, hready.free, hready.coreBound⟩
  constructor
  · rw [hslots]
    exact hready.tasks
  · rw [hready.assigned]
    rfl
  · intro core
    rw [hready.coreList]
    simp [Problem.load, elseProblem, prepare]
  · rw [hready.currIdx, slotsInUse, hslots]
    exact (List.append_nil _).symm ▸ List.reverse_perm _
  · exact hready.currIdx.ge
  · rw [hready.currIdx]
    exact cfg.numOfTask_le_maxNumTasks
  · rw [hready.created, hready.currIdx]
  · intro task p hp hslot
    obtain ⟨index, hindex, rfl⟩ := List.mem_map.mp hp
    rw [List.mem_reverse, List.mem_range] at hindex
    rw [hready.taskList]
    exact carries_initialInfo creates (hslot ▸ hindex) rfl hslot
  · simp [elseProblem]
  · intro task hunused
    rw [hready.currIdx] at hunused
    rw [hready.taskList, initialInfo, if_neg (not_lt.mpr hunused)]
  · intro task hused
    rw [hready.currIdx] at hused
    rw [hready.taskList, initialInfo, if_pos hused]
  · rw [hready.splits, hready.currIdx, Nat.sub_self]
    rfl
  · rw [hready.splits]
    rfl
  · exact hready.printed

/-! ## The `#else` loop -/

/-- What an iteration of the `#else` loop does. -/
inductive ElseIteration (creates : ℕ → Option TaskHandle)
    (table : TaskTable cfg) (state : State cfg) (plan : Plan (CorePtr cfg)) :
    Except Fault (Flow (State cfg)) → Prop
  | exhausted {after : State cfg}
      (hfull : ∀ core, cfg.utilizationBound ≤ (elseProblem table).load plan core)
      (hmemory : after.memory =
        state.memory.log (.printf .allProcessorsFullyUtilized))
      (hstack : after.taskManager = state.taskManager.pop.2) :
      ElseIteration creates table state plan (.ok (.leave after))
  | noSlot {core : CorePtr cfg} {piece : Piece} {pieces : List Piece}
      (hqueue : plan.queue = piece :: pieces)
      (htarget : (elseProblem table).Target plan core)
      (hover : cfg.utilizationBound <
        (elseProblem table).load plan core + piece.load)
      (hslot : state.memory.currIdx = cfg.maxNumTasks) :
      ElseIteration creates table state plan (.error .nullTask)
  | places {core : CorePtr cfg} {after : State cfg} {plan' : Plan (CorePtr cfg)}
      (htarget : (elseProblem table).Target plan core)
      (hplaces : PlacesIn creates (elseProblem table) core state.taskManager
        state.memory plan after.taskManager after.memory plan')
      (hstate : ElseState creates table after plan') :
      ElseIteration creates table state plan (.ok (.next after))

namespace ElseState

theorem utilization (hstate : ElseState creates table state plan)
    (core : CorePtr cfg) : (state.memory.coreList core).utilization =
      (elseProblem table).load plan core := by
  rw [hstate.represents.coreList]

theorem iteration (hstate : ElseState creates table state plan)
    (hguard : (elseAssign creates).guard state = true) :
    ElseIteration creates table state plan (elseAssignBody creates state) := by
  have hne : plan.queue ≠ [] := by
    simpa [elseAssign, hstate.represents.guard_eq] using hguard
  obtain ⟨task, rest, piece, pieces, hentries, hqueue, htask, _⟩ :=
    hstate.represents.top hne
  have hcores : state.coreManager.list.entries ≠ [] := by
    rw [hstate.free, Ne, List.reverse_eq_nil_iff, List.finRange_eq_nil_iff]
    exact cfg.cores_pos.ne'
  have hmem : ∀ core, core ∈ state.coreManager.list.entries := by
    intro core
    rw [hstate.free, List.mem_reverse]
    exact List.mem_finRange core
  have hpop : popTask state.taskManager state.memory =
      (some task, state.taskManager.pop.2, state.memory) :=
    popEntry_of_cons hentries
  obtain ⟨minCore, hmin, _, hleast⟩ :=
    getMinCore_of_ne_nil hcores state.memory.coreList
  have hleast' : ∀ other, (elseProblem table).load plan minCore ≤
      (elseProblem table).load plan other := by
    intro other
    rw [← hstate.utilization, ← hstate.utilization]
    exact hleast other (hmem other)
  by_cases hfull : cfg.utilizationBound ≤
      (state.memory.coreList minCore).utilization
  · have hbody : elseAssignBody creates state = .ok (.leave { state with
        memory := state.memory.log (.printf .allProcessorsFullyUtilized)
        taskManager := state.taskManager.pop.2 }) := by
      simp only [elseAssignBody, hmin, hpop, if_pos hfull]
    rw [hbody]
    rw [hstate.utilization] at hfull
    exact .exhausted (fun core => hfull.trans (hleast' core)) rfl rfl
  · have htarget : (elseProblem table).Target plan minCore := by
      refine .normal (Finset.mem_univ minCore) ?_ fun other _ => hleast' other
      rw [← hstate.utilization]
      exact lt_of_not_ge hfull
    rcases assignOrSplit_cases hstate.represents rfl hstate.coreBound hentries
      hqueue htask minCore with
      ⟨hover, hslot, hrun⟩ | ⟨stack, memory, plan', hplaces, hrun⟩
    · have hbody : elseAssignBody creates state = .error .nullTask := by
        simp only [elseAssignBody, hmin, hpop, if_neg hfull, hrun]
      rw [hbody]
      exact .noSlot hqueue htarget hover hslot
    · have hbody : elseAssignBody creates state =
          .ok (.next { state with memory, taskManager := stack }) := by
        simp only [elseAssignBody, hmin, hpop, if_neg hfull, hrun]
      rw [hbody]
      refine .places htarget hplaces ⟨hplaces.represents hstate.represents,
        ?_, hstate.free, hstate.coreBound⟩
      exact hstate.reaches.tail ⟨minCore, htarget, hplaces.places⟩

end ElseState

/-! ## Loop heads -/

theorem Spa2State.next {after : State cfg}
    (hstate : Spa2State creates table state plan)
    (hguard : (normalAssign creates).guard state = true)
    (hbody : normalAssignBody creates state = .ok (.next after)) :
    ∃ core plan', (spa2Problem table).Target plan core ∧
      PlacesIn creates (spa2Problem table) core state.uq state.memory plan
        after.uq after.memory plan' ∧
      Spa2State creates table after plan' := by
  have hiteration := hstate.iteration hguard
  rw [hbody] at hiteration
  cases hiteration with
  | places htarget hplaces hafter => exact ⟨_, _, htarget, hplaces, hafter⟩

theorem Spa2Head.next {after : State cfg}
    (hhead : Spa2Head creates table state)
    (hguard : (normalAssign creates).guard state = true)
    (hbody : normalAssignBody creates state = .ok (.next after)) :
    Spa2Head creates table after := by
  obtain ⟨ready, start, hsetup, hstart, hloop⟩ := hhead
  exact ⟨ready, start, hsetup, hstart, hloop.next hguard hbody⟩

/-- Every state at the head of the SPA2 loop represents a plan. -/
theorem spa2Head_state (hhead : Spa2Head creates table state) :
    ∃ plan, Spa2State creates table state plan := by
  obtain ⟨ready, start, hsetup, hpre, hloop⟩ := hhead
  have hstart := chosen_of_preAssign hsetup hpre
  apply hloop.invariant
  · exact ⟨_, spa2State_start hstart⟩
  · rintro state after ⟨plan, hstate⟩ hguard hbody
    obtain ⟨_, plan', _, _, hafter⟩ := hstate.next hguard hbody
    exact ⟨plan', hafter⟩

/-- The iteration in which the SPA2 loop is left. -/
theorem spa2Exit_iteration (hexit : Spa2Exit creates table state) :
    ∃ before plan, Spa2State creates table before plan ∧
      Spa2Iteration creates table before plan (.ok (.leave state)) := by
  obtain ⟨ready, start, hsetup, hpre, hloop⟩ := hexit
  cases hloop with
  | @leave before _ hhead hguard hbody =>
      obtain ⟨plan, hplan⟩ := spa2Head_state ⟨ready, start, hsetup, hpre, hhead⟩
      have hiteration := hplan.iteration hguard
      change normalAssignBody creates before = .ok (.leave state) at hbody
      rw [hbody] at hiteration
      exact ⟨before, plan, hplan, hiteration⟩

/-- The `break` of the SPA2 loop only leaves its message in the memory. -/
theorem spa2Exit_state (hexit : Spa2Exit creates table state) :
    ∃ before plan, Spa2State creates table before plan ∧
      state.memory = before.memory.log (.printf .allProcessorsFullyUtilized) := by
  obtain ⟨before, plan, hplan, hiteration⟩ := spa2Exit_iteration hexit
  cases hiteration with
  | exhausted _ _ _ _ hmemory _ => exact ⟨before, plan, hplan, hmemory⟩

/-! ## Termination -/

/-- The pieces and the free slots an iteration can still use up. -/
def remaining (stack : TaskStack cfg) (memory : Memory cfg) : ℕ :=
  stack.entries.length + (cfg.maxNumTasks - memory.currIdx)

theorem PlacesIn.remaining_lt {P : Problem (CorePtr cfg)} {core : CorePtr cfg}
    {stack stack' : TaskStack cfg} {memory memory' : Memory cfg}
    {plan' : Plan (CorePtr cfg)}
    (hplaces : PlacesIn creates P core stack memory plan stack' memory' plan') :
    remaining stack' memory' < remaining stack memory := by
  cases hplaces with
  | fit hentries _ =>
      rw [remaining, remaining, entries_pop, hentries, List.length_cons]
      simp only [List.tail_cons, currIdx_assignTask]
      omega
  | split hentries hslot _ _ =>
      rw [remaining, remaining,
        Stack.entries_push _ (room_of_entries hentries), entries_pop, hentries]
      simp only [List.tail_cons, List.length_cons, currIdx_assignTask,
        currIdx_splitMemory]
      omega

/-- The run of the SPA2 branch from the head of its loop. -/
theorem spa2_eq_run (creates : ℕ → Option TaskHandle) (table : TaskTable cfg) :
    ∃ ready start, setup creates table = .ok ready ∧
      preAssign ready = .ok start ∧
      Chosen creates table cfg.numOfTask start ∧
      spa2 creates table = (normalAssign creates).run cfg.maxNumTasks start := by
  obtain ⟨ready, start, hsetup, hpre, hstart⟩ := preAssign_spec creates table
  exact ⟨ready, start, hsetup, hpre, hstart, by simp only [spa2, hsetup, hpre]⟩

/-- The SPA2 branch always ends: in its guard, by its `break` or by a fault. -/
theorem spa2_ne_outOfFuel (creates : ℕ → Option TaskHandle)
    (table : TaskTable cfg) : spa2 creates table ≠ .outOfFuel := by
  obtain ⟨ready, start, _, _, hstart, hrun⟩ := spa2_eq_run creates table
  rw [hrun]
  have hlength : start.uq.entries.length ≤ cfg.numOfTask := by
    have hmap := congrArg List.length hstart.uq
    rw [List.length_map, List.length_map] at hmap
    exact hmap.trans_le (waiting_length_le table cfg.numOfTask)
  have hmax := cfg.numOfTask_le_maxNumTasks
  refine While.run_ne_outOfFuel
    (fun state => ∃ plan, Spa2State creates table state plan)
    (fun state => remaining state.uq state.memory)
    (fun state after hinvariant hguard hbody => ?_)
    ⟨_, spa2State_start hstart⟩ (fun state _ hzero => ?_) ?_
  · obtain ⟨plan, hstate⟩ := hinvariant
    obtain ⟨_, plan', _, hplaces, hafter⟩ := hstate.next hguard hbody
    exact ⟨⟨plan', hafter⟩, hplaces.remaining_lt⟩
  · have hempty : state.uq.entries = [] :=
      List.length_eq_zero_iff.mp (Nat.eq_zero_of_add_eq_zero_right hzero)
    simp [normalAssign, (Stack.isEmpty_eq_true_iff _).mpr hempty]
  · rw [remaining, hstart.currIdx]
    omega

/-! ## The head of the `#else` loop -/

theorem ElseState.next {after : State cfg}
    (hstate : ElseState creates table state plan)
    (hguard : (elseAssign creates).guard state = true)
    (hbody : elseAssignBody creates state = .ok (.next after)) :
    ∃ core plan', (elseProblem table).Target plan core ∧
      PlacesIn creates (elseProblem table) core state.taskManager state.memory
        plan after.taskManager after.memory plan' ∧
      ElseState creates table after plan' := by
  have hiteration := hstate.iteration hguard
  rw [hbody] at hiteration
  cases hiteration with
  | places htarget hplaces hafter => exact ⟨_, _, htarget, hplaces, hafter⟩

/-- The run of the `#else` branch from the head of its loop. -/
theorem elseBranch_eq_run (creates : ℕ → Option TaskHandle)
    (table : TaskTable cfg) :
    ∃ ready, setup creates table = .ok ready ∧
      Chosen creates table 0 ready ∧ elseBranch creates table =
        (elseAssign creates).run cfg.maxNumTasks ready := by
  obtain ⟨ready, hsetup, hready⟩ := setup_spec creates table
  exact ⟨ready, hsetup, hready, by simp only [elseBranch, hsetup]⟩

theorem elseHead_state {ready : State cfg}
    (hready : Chosen creates table 0 ready)
    (hhead : (elseAssign creates).Head ready state) :
    ∃ plan, ElseState creates table state plan := by
  apply hhead.invariant
  · exact ⟨_, elseState_start hready⟩
  · rintro state after ⟨plan, hstate⟩ hguard hbody
    obtain ⟨_, plan', _, _, hafter⟩ := hstate.next hguard hbody
    exact ⟨plan', hafter⟩

/-- Every state at the head of the `#else` loop represents a plan. -/
theorem elseState_of_head (hhead : ElseHead creates table state) :
    ∃ plan, ElseState creates table state plan := by
  obtain ⟨ready, hsetup, hloop⟩ := hhead
  exact elseHead_state (chosen_of_setup hsetup) hloop

theorem elseBranch_ne_outOfFuel (creates : ℕ → Option TaskHandle)
    (table : TaskTable cfg) : elseBranch creates table ≠ .outOfFuel := by
  obtain ⟨ready, _, hready, hrun⟩ := elseBranch_eq_run creates table
  rw [hrun]
  have hlength : ready.taskManager.entries.length = cfg.numOfTask := by
    have hmap := congrArg List.length hready.tasks
    rwa [List.length_map, List.length_reverse, List.length_range] at hmap
  have hmax := cfg.numOfTask_le_maxNumTasks
  refine While.run_ne_outOfFuel
    (fun state => ∃ plan, ElseState creates table state plan)
    (fun state => remaining state.taskManager state.memory)
    (fun state after hinvariant hguard hbody => ?_)
    ⟨_, elseState_start hready⟩ (fun state _ hzero => ?_) ?_
  · obtain ⟨plan, hstate⟩ := hinvariant
    obtain ⟨_, plan', _, hplaces, hafter⟩ := hstate.next hguard hbody
    exact ⟨⟨plan', hafter⟩, hplaces.remaining_lt⟩
  · have hempty : state.taskManager.entries = [] :=
      List.length_eq_zero_iff.mp (Nat.eq_zero_of_add_eq_zero_right hzero)
    simp [elseAssign, (Stack.isEmpty_eq_true_iff _).mpr hempty]
  · rw [remaining, hready.currIdx, hlength]
    omega

/-- A finished run of the SPA2 branch ends at the loop head, with an empty
queue. -/
theorem spa2Head_of_done {final : State cfg}
    (hrun : spa2 creates table = .done final) :
    Spa2Head creates table final ∧ final.uq.isEmpty = true := by
  obtain ⟨ready, start, hsetup, hpre, _⟩ := preAssign_spec creates table
  simp only [spa2, hsetup, hpre] at hrun
  obtain ⟨hhead, hguard⟩ := While.run_eq_done hrun
  exact ⟨⟨ready, start, hsetup, hpre, hhead⟩, by simpa [normalAssign] using hguard⟩

theorem elseHead_of_done {final : State cfg}
    (hrun : elseBranch creates table = .done final) :
    ElseHead creates table final := by
  obtain ⟨ready, hsetup, _, heq⟩ := elseBranch_eq_run creates table
  rw [heq] at hrun
  exact ⟨ready, hsetup, (While.run_eq_done hrun).1⟩

theorem spa2Exit_of_left {final : State cfg}
    (hrun : spa2 creates table = .left final) :
    Spa2Exit creates table final := by
  obtain ⟨ready, start, hsetup, hpre, _, heq⟩ := spa2_eq_run creates table
  rw [heq] at hrun
  exact ⟨ready, start, hsetup, hpre, While.run_eq_left hrun⟩

/-- The iteration in which the SPA2 loop faults. -/
theorem spa2_fault_iteration {error : Fault}
    (hrun : spa2 creates table = .fault error) :
    ∃ before plan, Spa2State creates table before plan ∧
      Spa2Iteration creates table before plan (.error error) := by
  obtain ⟨ready, start, hsetup, hpre, _, heq⟩ := spa2_eq_run creates table
  rw [heq] at hrun
  obtain ⟨before, hhead, hguard, hbody⟩ := While.run_eq_fault hrun
  obtain ⟨plan, hplan⟩ := spa2Head_state ⟨ready, start, hsetup, hpre, hhead⟩
  have hiteration := hplan.iteration hguard
  change normalAssignBody creates before = .error error at hbody
  rw [hbody] at hiteration
  exact ⟨before, plan, hplan, hiteration⟩

/-- The iteration in which the `#else` loop is left. -/
theorem elseBranch_left_iteration {final : State cfg}
    (hrun : elseBranch creates table = .left final) :
    ∃ before plan, ElseState creates table before plan ∧
      ElseIteration creates table before plan (.ok (.leave final)) := by
  obtain ⟨ready, _, hready, heq⟩ := elseBranch_eq_run creates table
  rw [heq] at hrun
  cases While.run_eq_left hrun with
  | @leave before _ hhead hguard hbody =>
      obtain ⟨plan, hplan⟩ := elseHead_state hready hhead
      have hiteration := hplan.iteration hguard
      change elseAssignBody creates before = .ok (.leave final) at hbody
      rw [hbody] at hiteration
      exact ⟨before, plan, hplan, hiteration⟩

/-- The iteration in which the `#else` loop faults. -/
theorem elseBranch_fault_iteration {error : Fault}
    (hrun : elseBranch creates table = .fault error) :
    ∃ before plan, ElseState creates table before plan ∧
      ElseIteration creates table before plan (.error error) := by
  obtain ⟨ready, _, hready, heq⟩ := elseBranch_eq_run creates table
  rw [heq] at hrun
  obtain ⟨before, hhead, hguard, hbody⟩ := While.run_eq_fault hrun
  obtain ⟨plan, hplan⟩ := elseHead_state hready hhead
  have hiteration := hplan.iteration hguard
  change elseAssignBody creates before = .error error at hbody
  rw [hbody] at hiteration
  exact ⟨before, plan, hplan, hiteration⟩

end PicoSched.Refinement
