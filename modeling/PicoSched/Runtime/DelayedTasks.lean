import PicoSched.Runtime.DelayedLists

/-!
# The kernel keeps its wake times

With a tick count of 32 bits, two delayed lists and the next unblock time the
kernel does in every run what a clock does that never wraps.
-/

namespace PicoSched.DelayedTasks

open CyclicTime Kernel KernelList RunTask Transition

variable {ι : Type*} [DecidableEq ι] {setup : Setup ι} {state : State ι}
  {resumed : ι → Bool} {task : ι}

/-! ## The simulation -/

structure Tracks (setup : Setup ι) (state : State ι) (clock : Clock ι) :
    Prop where
  lists : Lists setup state clock.now clock.condition clock.resumed
  ahead : Ahead clock.now clock.condition
  unblocks : UnblocksInTime state clock.now clock.condition
  suspensions : state.uxSchedulerSuspended = clock.suspensions
  pended : state.xPendedTicks = clock.pended
  resumed : ∀ task, clock.resumed task = true →
    clock.condition task = .suspended
  resumed_suspensions : ∀ task, clock.resumed task = true →
    clock.suspensions ≠ 0

theorem xTaskDelayUntil_fst (tick previousWakeTime timeIncrement : ℕ) :
    (xTaskDelayUntil tick previousWakeTime timeIncrement).1 =
      (previousWakeTime + timeIncrement) % 2 ^ 32 := by
  rw [xTaskDelayUntil]
  split <;> rfl

/-- The time that `xTaskDelayUntil` waits is never zero. -/
theorem delayUntil_wait_pos {tick previousWakeTime timeIncrement : ℕ}
    (htick : tick < 2 ^ 32)
    (hdelay :
      (xTaskDelayUntil tick previousWakeTime timeIncrement).2 = true) :
    0 < ((xTaskDelayUntil tick previousWakeTime timeIncrement).1 + 2 ^ 32 -
      tick) % 2 ^ 32 := by
  rw [xTaskDelayUntil_fst]
  have hlt := Nat.mod_lt (previousWakeTime + timeIncrement)
    (Nat.two_pow_pos 32)
  have hne : (previousWakeTime + timeIncrement) % 2 ^ 32 ≠ tick := by
    rw [xTaskDelayUntil] at hdelay
    split at hdelay
    all_goals
      have hdecide := of_decide_eq_true hdelay
      omega
  omega

namespace Tracks

variable {clock : Clock ι}

theorem xTaskIncrementTick (htracks : Tracks setup state clock)
    (hsuspensions : clock.suspensions = 0) :
    ∃ after, DelayedTasks.xTaskIncrementTick setup.priority state =
      some after ∧ Tracks setup after clock.advance := by
  obtain ⟨hlists, hahead, hunblocks, hcalls, hpended, hresumed, hopen⟩ := htracks
  obtain ⟨hcounted, hnext⟩ := hlists.countTick hahead hunblocks
  have hsame : (countTick state).uxSchedulerSuspended =
      state.uxSchedulerSuspended ∧
        (countTick state).xPendedTicks = state.xPendedTicks := by
    rw [countTick]
    dsimp only
    split <;> exact ⟨rfl, rfl⟩
  have hwoken : ∃ after, DelayedTasks.xTaskIncrementTick setup.priority state =
      some after ∧ Lists.Woken setup (countTick state) after (clock.now + 1)
        clock.condition clock.resumed := by
    rw [DelayedTasks.xTaskIncrementTick, if_pos (hcalls.trans hsuspensions)]
    dsimp only
    rw [hcounted.tickCount]
    split
    · exact hcounted.unblockLoop hresumed le_rfl
    · rename_i hlater
      refine ⟨_, rfl, hcounted.woken (hcounted.ahead ?_) hnext⟩
      intro task wake hwake hepoch
      refine lt_of_not_ge fun hle => hlater ?_
      exact (hnext task wake hwake hepoch).trans
        ((mod_le_iff hepoch).mpr hle)
  obtain ⟨after, htick, hframe, hafter, hahead', hunblocks'⟩ := hwoken
  refine ⟨after, htick, hafter, hahead', hunblocks', ?_, ?_, ?_, hopen⟩
  · rw [hframe]
    exact hsame.1.trans hcalls
  · rw [hframe]
    exact hsame.2.trans hpended
  · intro task htask
    change (clock.condition task).tick _ = _
    rw [hresumed task htask]
    rfl

/-- A task gets a new condition. -/
theorem changed (htracks : Tracks setup state clock) {after : State ι}
    {target : Condition}
    (hlists : Lists setup after clock.now
      (Function.update clock.condition task target)
      (Function.update clock.resumed task false))
    (hunblocks : UnblocksInTime after clock.now
      (Function.update clock.condition task target))
    (hwake : ∀ wake, target = .asleep wake → clock.now < wake)
    (hcalls : after.uxSchedulerSuspended = state.uxSchedulerSuspended)
    (hpended : after.xPendedTicks = state.xPendedTicks) :
    Tracks setup after (clock.setCondition task target) where
  lists := hlists
  ahead other wake hother := by
    change Function.update clock.condition task target other = _ at hother
    by_cases heq : other = task
    · subst heq
      rw [Function.update_self] at hother
      exact hwake wake hother
    · rw [Function.update_of_ne heq] at hother
      exact htracks.ahead other wake hother
  unblocks := hunblocks
  suspensions := hcalls.trans htracks.suspensions
  pended := hpended.trans htracks.pended
  resumed other hother := by
    change Function.update clock.resumed task false other = _ at hother
    change Function.update clock.condition task target other = _
    have heq : other ≠ task := by
      rintro rfl
      rw [Function.update_self] at hother
      cases hother
    rw [Function.update_of_ne heq] at hother ⊢
    exact htracks.resumed other hother
  resumed_suspensions other hother := by
    change Function.update clock.resumed task false other = _ at hother
    by_cases heq : other = task
    · subst heq
      rw [Function.update_self] at hother
      cases hother
    · rw [Function.update_of_ne heq] at hother
      exact htracks.resumed_suspensions other hother

theorem not_resumed (htracks : Tracks setup state clock) (task : ι)
    (hcondition : clock.condition task ≠ .suspended) :
    clock.resumed task = false :=
  Bool.eq_false_iff.mpr fun htrue => hcondition (htracks.resumed task htrue)

theorem resumed_update (htracks : Tracks setup state clock) (task : ι)
    (hcondition : clock.condition task ≠ .suspended) :
    Function.update clock.resumed task false = clock.resumed := by
  rw [← htracks.not_resumed task hcondition, Function.update_eq_self]

/-- The running task blocks for a number of ticks. -/
theorem sleep (htracks : Tracks setup state clock)
    (hready : clock.condition task = .ready) {ticks : ℕ} (hpos : 0 < ticks)
    (hticks : ticks < 2 ^ 32) :
    ∃ after, prvAddCurrentTaskToDelayedList task ticks false state =
        some after ∧
      Tracks setup after
        (clock.setCondition task (.asleep (clock.now + ticks))) := by
  have hlist := htracks.lists.stateList task
  rw [hready] at hlist
  obtain ⟨memory, hremove, -, hremoved⟩ := htracks.lists.removeState hlist
  have hwithin : Within (2 ^ 32) clock.now (clock.now + ticks) :=
    ⟨Nat.le_add_right _ _, Nat.add_lt_add_left hticks _⟩
  have htime : (state.xTickCount + ticks) % 2 ^ 32 =
      (clock.now + ticks) % 2 ^ 32 := by
    rw [htracks.lists.tickCount, Nat.mod_add_mod]
  have hnotSuspended : clock.condition task ≠ .suspended := by
    rw [hready]
    exact Condition.noConfusion
  have hahead : ∀ wake, Condition.asleep (clock.now + ticks) = .asleep wake →
      clock.now < wake := by
    rintro _ ⟨⟩
    exact Nat.lt_add_of_pos_right hpos
  have hwrapped : (clock.now + ticks) % 2 ^ 32 < state.xTickCount ↔
      (clock.now + ticks) / 2 ^ 32 = clock.now / 2 ^ 32 + 1 := by
    rw [htracks.lists.tickCount]
    exact hwithin.mod_lt_iff
  rw [prvAddCurrentTaskToDelayedList, hremove]
  simp only [Bool.false_eq_true, and_false, if_false, htime]
  rw [← htracks.resumed_update task hnotSuspended] at hremoved
  by_cases hwrap : (clock.now + ticks) % 2 ^ 32 < state.xTickCount
  · have hlater : (clock.now + ticks) / 2 ^ 32 ≠ clock.now / 2 ^ 32 := by
      rw [hwrapped.mp hwrap]
      exact (Nat.lt_succ_self _).ne'
    obtain ⟨memory', hinsert, hlists⟩ := hremoved.insertDelayed
      state.pxOverflowDelayedTaskList (congrArg some (if_neg hlater))
      hwithin
    rw [if_pos hwrap]
    refine ⟨_, hinsert, htracks.changed hlists ?_ hahead rfl rfl⟩
    intro other wake hwake hepoch
    by_cases heq : other = task
    · subst heq
      rw [Function.update_self] at hwake
      obtain rfl := Condition.asleep.inj hwake
      exact absurd hepoch hlater
    · rw [Function.update_of_ne heq] at hwake
      exact htracks.unblocks other wake hwake hepoch
  · have hepoch : (clock.now + ticks) / 2 ^ 32 = clock.now / 2 ^ 32 :=
      hwithin.epoch.resolve_right (mt hwrapped.mpr hwrap)
    obtain ⟨memory', hinsert, hlists⟩ := hremoved.insertDelayed
      state.pxDelayedTaskList (congrArg some (if_pos hepoch)) hwithin
    rw [if_neg hwrap, hinsert]
    refine ⟨_, rfl, htracks.changed hlists.frame ?_ hahead rfl rfl⟩
    intro other wake hwake hsame
    change (if _ then _ else _) ≤ _
    by_cases heq : other = task
    · subst heq
      rw [Function.update_self] at hwake
      obtain rfl := Condition.asleep.inj hwake
      split
      · exact le_rfl
      · rename_i hle
        exact not_lt.mp hle
    · rw [Function.update_of_ne heq] at hwake
      have hbound := htracks.unblocks other wake hwake hsame
      split
      · rename_i hlt
        exact hlt.le.trans hbound
      · exact hbound

/-! ### One task -/

theorem stateList_eq_none (htracks : Tracks setup state clock) :
    state.stateList task = none ↔ clock.condition task = .absent := by
  rw [htracks.lists.stateList]
  cases clock.condition task <;> simp [place]

theorem stateList_eq_ready (htracks : Tracks setup state clock) :
    state.stateList task = some (.ready (setup.priority task)) ↔
      clock.condition task = .ready := by
  have hlists := htracks.lists
  have hne := hlists.delayed_ne (.ready (setup.priority task))
    (by simp [IsDelayedList])
  rw [hlists.stateList]
  cases clock.condition task with
  | asleep wake =>
      refine iff_of_false (fun heq => ?_) Condition.noConfusion
      have hlist := Option.some.inj heq
      split at hlist
      · exact hne.1 hlist.symm
      · exact hne.2 hlist.symm
  | _ => simp [place]

theorem calls_iff (htracks : Tracks setup state clock) :
    setup.Calls task state ↔ clock.Calls task := by
  rw [Setup.Calls, Clock.Calls, htracks.suspensions,
    htracks.stateList_eq_ready]

/-- Both list items of a task are taken off their lists. -/
theorem taken (htracks : Tracks setup state clock)
    (hcondition : clock.condition task ≠ .absent) :
    ∃ memory memory',
      state.removeItem (.state task) = some { state with memory := memory } ∧
      State.removeEvent task { state with memory := memory } =
        some { state with memory := memory' } ∧
      Lists setup { state with memory := memory' } clock.now
        (Function.update clock.condition task .absent)
        (Function.update clock.resumed task false) := by
  obtain ⟨list, hlist⟩ := Option.ne_none_iff_exists'.mp
    (mt htracks.stateList_eq_none.mp hcondition)
  obtain ⟨memory, hremove, -, hremoved⟩ := htracks.lists.removeState hlist
  obtain ⟨memory', hevent, hafter⟩ := hremoved.removeEvent task
  exact ⟨memory, memory', hremove, hevent, hafter⟩

theorem block (htracks : Tracks setup state clock)
    (hready : clock.condition task = .ready) :
    ∃ after, prvAddCurrentTaskToDelayedList task portMaxDelay true state =
        some after ∧
      Tracks setup after (clock.setCondition task .suspended) := by
  have hlist := htracks.lists.stateList task
  rw [hready] at hlist
  obtain ⟨memory, hremove, -, hremoved⟩ := htracks.lists.removeState hlist
  rw [← htracks.resumed_update task
    (by rw [hready]; exact Condition.noConfusion)] at hremoved
  rw [prvAddCurrentTaskToDelayedList, hremove]
  refine ⟨_, if_pos ⟨rfl, rfl⟩, htracks.changed (hremoved.insertEnd .suspended rfl
    (by simp [IsDelayedList]) ?_) (htracks.unblocks.awake rfl ?_) ?_ rfl rfl⟩
  all_goals intro wake hwake; cases hwake

theorem suspend (htracks : Tracks setup state clock)
    (hcondition : clock.condition task ≠ .absent) :
    ∃ after, vTaskSuspend task state = some after ∧
      Tracks setup after (clock.setCondition task .suspended) := by
  obtain ⟨memory, memory', hremove, hevent, hafter⟩ := htracks.taken hcondition
  have hlists := hafter.insertEnd .suspended rfl
    (by simp [IsDelayedList]) (fun wake hwake => by cases hwake)
  rw [vTaskSuspend, hremove]
  dsimp only
  rw [hevent]
  refine ⟨_, rfl, htracks.changed hlists.reset hlists.unblocksInTime_reset ?_
    rfl rfl⟩
  intro wake hwake
  cases hwake

theorem delete (htracks : Tracks setup state clock)
    (hcondition : clock.condition task ≠ .absent) (isRunningOrYielding : Bool) :
    ∃ after, vTaskDelete task isRunningOrYielding state = some after ∧
      Tracks setup after (clock.setCondition task
        (if isRunningOrYielding then .deleted else .absent)) := by
  obtain ⟨memory, memory', hremove, hevent, hafter⟩ := htracks.taken hcondition
  rw [vTaskDelete, hremove]
  dsimp only
  rw [hevent]
  refine ⟨_, rfl, ?_⟩
  cases isRunningOrYielding with
  | true =>
      have hlists := hafter.insertEnd .deleted rfl
        (by simp [IsDelayedList]) (fun wake hwake => by cases hwake)
      refine htracks.changed hlists (htracks.unblocks.awake rfl ?_) ?_ rfl rfl
      all_goals intro wake hwake; cases hwake
  | false =>
      refine htracks.changed hafter.reset hafter.unblocksInTime_reset ?_ rfl rfl
      intro wake hwake
      cases hwake

theorem create (htracks : Tracks setup state clock)
    (hcondition : clock.condition task = .absent) :
    Tracks setup (prvAddTaskToReadyList setup.priority task state)
      (clock.setCondition task .ready) := by
  have hlists := htracks.lists
  rw [← Function.update_eq_self task clock.condition, hcondition,
    ← htracks.resumed_update task
      (by rw [hcondition]; exact Condition.noConfusion)] at hlists
  refine htracks.changed hlists.addToReady (htracks.unblocks.awake rfl ?_) ?_
    rfl rfl
  all_goals intro wake hwake; cases hwake

theorem isTaskSuspended_iff (htracks : Tracks setup state clock) :
    prvTaskIsTaskSuspended task state = true ↔
      clock.condition task = .suspended ∧ clock.resumed task = false := by
  have hlists := htracks.lists
  have hne := hlists.delayed_ne .suspended (by simp [IsDelayedList])
  have hstate : state.stateList task = some .suspended ↔
      clock.condition task = .suspended := by
    rw [hlists.stateList]
    cases clock.condition task with
    | asleep wake =>
        refine iff_of_false (fun heq => ?_) Condition.noConfusion
        have hlist := Option.some.inj heq
        split at hlist
        · exact hne.1 hlist.symm
        · exact hne.2 hlist.symm
    | _ => simp [place]
  have hevent := hlists.eventList task
  cases hresumed : clock.resumed task <;>
    simp [prvTaskIsTaskSuspended, hstate, hevent, hresumed]

/-- A suspended task is made ready. -/
theorem ready (htracks : Tracks setup state clock)
    (hcondition : clock.condition task ≠ .absent)
    (hresumed : clock.resumed task = false) :
    ∃ after, (state.removeItem (.state task)).map
        (prvAddTaskToReadyList setup.priority task) = some after ∧
      Tracks setup after (clock.setCondition task .ready) := by
  obtain ⟨list, hlist⟩ := Option.ne_none_iff_exists'.mp
    (mt htracks.stateList_eq_none.mp hcondition)
  obtain ⟨memory, hremove, -, hremoved⟩ := htracks.lists.removeState hlist
  have hsame : Function.update clock.resumed task false = clock.resumed := by
    rw [← hresumed, Function.update_eq_self]
  rw [← hsame] at hremoved
  rw [hremove]
  refine ⟨_, rfl, htracks.changed hremoved.addToReady
    (htracks.unblocks.awake rfl ?_) ?_ rfl rfl⟩
  all_goals intro wake hwake; cases hwake

theorem resume (htracks : Tracks setup state clock) (task : ι) :
    ∃ after, vTaskResume setup.priority task state = some after ∧
      Tracks setup after (clock.resume task) := by
  rw [vTaskResume, Clock.resume]
  by_cases hsuspended : clock.condition task = .suspended ∧
      clock.resumed task = false
  · rw [if_pos (htracks.isTaskSuspended_iff.mpr hsuspended),
      if_pos hsuspended]
    exact htracks.ready (by rw [hsuspended.1]; exact Condition.noConfusion)
      hsuspended.2
  · rw [if_neg (mt htracks.isTaskSuspended_iff.mp hsuspended),
      if_neg hsuspended]
    exact ⟨state, rfl, htracks⟩

/-- A task is resumed while the ready lists must not be touched. -/
theorem pend (htracks : Tracks setup state clock)
    (hcondition : clock.condition task = .suspended)
    (hresumed : clock.resumed task = false) (hopen : clock.suspensions ≠ 0) :
    Tracks setup (state.insertEnd .pendingReady (.event task))
      { clock with resumed := Function.update clock.resumed task true } where
  lists := htracks.lists.insertPending hresumed
  ahead := htracks.ahead
  unblocks := htracks.unblocks
  suspensions := htracks.suspensions
  pended := htracks.pended
  resumed other hother := by
    by_cases heq : other = task
    · exact heq ▸ hcondition
    · change Function.update clock.resumed task true other = _ at hother
      rw [Function.update_of_ne heq] at hother
      exact htracks.resumed other hother
  resumed_suspensions _ _ := hopen

theorem resumeFromISR (htracks : Tracks setup state clock) (task : ι) :
    ∃ after, xTaskResumeFromISR setup.priority task state = some after ∧
      Tracks setup after (clock.resumeFromISR task) := by
  rw [xTaskResumeFromISR, Clock.resumeFromISR, htracks.suspensions]
  by_cases hopen : clock.suspensions = 0
  · have hresume := htracks.resume task
    rw [vTaskResume] at hresume
    simpa only [hopen, if_true] using hresume
  · simp only [hopen, if_false]
    by_cases hsuspended : clock.condition task = .suspended
    · rw [if_pos hsuspended]
      cases hresumed : clock.resumed task with
      | false =>
          rw [if_pos (htracks.isTaskSuspended_iff.mpr ⟨hsuspended, hresumed⟩)]
          exact ⟨_, rfl, htracks.pend hsuspended hresumed hopen⟩
      | true =>
          rw [if_neg (mt htracks.isTaskSuspended_iff.mp (by simp [hresumed])),
            ← hresumed, Function.update_eq_self]
          exact ⟨_, rfl, htracks⟩
    · rw [if_neg hsuspended, if_neg (mt htracks.isTaskSuspended_iff.mp
        fun h => hsuspended h.1)]
      exact ⟨_, rfl, htracks⟩

theorem isBlocked_iff (htracks : Tracks setup state clock) :
    isBlocked task state = true ↔
      ∃ wake, clock.condition task = .asleep wake := by
  have hlists := htracks.lists
  have hstate := hlists.stateList task
  have hevent := hlists.eventList task
  have hother : ∀ list, ¬IsDelayedList list →
      list ≠ state.pxDelayedTaskList ∧
        list ≠ state.pxOverflowDelayedTaskList :=
    hlists.delayed_ne
  cases hcondition : clock.condition task with
  | asleep wake =>
      have hawake := htracks.not_resumed task
        (by rw [hcondition]; exact Condition.noConfusion)
      rw [hawake, if_neg Bool.false_ne_true] at hevent
      rw [hcondition, place] at hstate
      refine iff_of_true ?_ ⟨wake, rfl⟩
      simp only [isBlocked, decide_eq_true_eq, hevent, hstate,
        Option.some.injEq]
      refine ⟨by simp, ?_⟩
      split
      · exact .inl rfl
      · exact .inr (.inl rfl)
  | _ =>
      refine iff_of_false ?_ (by simp)
      rw [hcondition, place] at hstate
      rw [isBlocked, decide_eq_true_eq, hstate, hevent]
      simp_all [IsDelayedList]

theorem abortDelay (htracks : Tracks setup state clock) (task : ι) :
    ∃ after, abortDelayBlock setup.priority task state = some after ∧
      Tracks setup after (clock.abortDelay task) := by
  rw [abortDelayBlock, Clock.abortDelay]
  by_cases hblocked : ∃ wake, clock.condition task = .asleep wake
  · rw [if_pos (htracks.isBlocked_iff.mpr hblocked)]
    obtain ⟨wake, hwake⟩ := hblocked
    obtain ⟨memory, memory', hremove, hevent, hafter⟩ := htracks.taken
      (by rw [hwake]; exact Condition.noConfusion)
    rw [hremove, hwake]
    dsimp only
    rw [hevent]
    refine ⟨_, rfl, htracks.changed hafter.addToReady
      (htracks.unblocks.awake rfl ?_) ?_ rfl rfl⟩
    all_goals intro wake hwake; cases hwake
  · rw [if_neg (mt htracks.isBlocked_iff.mp hblocked)]
    refine ⟨state, rfl, ?_⟩
    split
    · rename_i wake hwake
      exact absurd ⟨wake, hwake⟩ hblocked
    · exact htracks

theorem delayUntil (htracks : Tracks setup state clock)
    (hready : clock.condition task = .ready)
    (previousWakeTime timeIncrement : ℕ) :
    ∃ after, (delayUntilBlock task previousWakeTime timeIncrement state).map
        Prod.snd = some after ∧
      Tracks setup after
        (clock.delayUntil task previousWakeTime timeIncrement) := by
  have hcount : tickCount clock.now = state.xTickCount :=
    htracks.lists.tickCount.symm
  have hlt : state.xTickCount < 2 ^ 32 :=
    hcount ▸ Nat.mod_lt _ (Nat.two_pow_pos 32)
  rw [delayUntilBlock, Clock.delayUntil, Clock.delayUntilWake, hcount]
  by_cases hdelay :
      (xTaskDelayUntil state.xTickCount previousWakeTime timeIncrement).2 = true
  · rw [if_pos hdelay, if_pos hdelay]
    obtain ⟨after, hsleep, hafter⟩ := htracks.sleep hready
      (delayUntil_wait_pos hlt hdelay) (Nat.mod_lt _ (Nat.two_pow_pos 32))
    exact ⟨after, by rw [hsleep]; rfl, hafter⟩
  · rw [if_neg hdelay, if_neg hdelay]
    exact ⟨state, rfl, htracks⟩

/-! ### The scheduler resumes -/

theorem pendedTicksLoop (htracks : Tracks setup state clock)
    (hsuspensions : clock.suspensions = 0) (ticks : ℕ) :
    ∃ after, DelayedTasks.pendedTicksLoop setup.priority ticks state =
        some after ∧
      Tracks setup after (Clock.advance^[ticks] clock) := by
  induction ticks generalizing state clock with
  | zero => exact ⟨state, rfl, htracks⟩
  | succ ticks ih =>
      obtain ⟨next, htick, hnext⟩ := htracks.xTaskIncrementTick hsuspensions
      obtain ⟨after, hloop, hafter⟩ := ih hnext hsuspensions
      refine ⟨after, ?_, hafter⟩
      rw [DelayedTasks.pendedTicksLoop, htick]
      exact hloop

/-- The tasks that were resumed meanwhile are ready. -/
theorem release (htracks : Tracks setup state clock) :
    ∃ moved, DelayedTasks.pendingReadyLoop setup.priority
        (state.memory.numberOfItems .pendingReady)
        { state with uxSchedulerSuspended := 0 } = some moved ∧
      Tracks setup
        (if state.memory.numberOfItems .pendingReady = 0 then moved
          else prvResetNextTaskUnblockTime moved)
        { clock.release with suspensions := 0 } := by
  have hlists : Lists setup { state with uxSchedulerSuspended := 0 } clock.now
      clock.condition clock.resumed := htracks.lists.frame
  obtain ⟨memory, hloop, hreleased⟩ :=
    hlists.pendingReadyLoop htracks.resumed le_rfl
  have hasleep : ∀ task wake, clock.release.condition task = .asleep wake →
      clock.condition task = .asleep wake := by
    intro task wake hwake
    change (if _ then _ else _) = _ at hwake
    split at hwake
    · cases hwake
    · exact hwake
  have hahead : Ahead clock.now clock.release.condition :=
    fun task wake hwake => htracks.ahead task wake (hasleep task wake hwake)
  have hnone : ∀ task, clock.release.resumed task ≠ true :=
    fun _ => Bool.false_ne_true
  refine ⟨_, hloop, ?_⟩
  split
  · exact ⟨hreleased, hahead,
      fun task wake hwake => htracks.unblocks task wake (hasleep task wake hwake),
      rfl, htracks.pended, fun task htask => absurd htask (hnone task),
      fun task htask => absurd htask (hnone task)⟩
  · exact ⟨hreleased.reset, hahead, hreleased.unblocksInTime_reset, rfl,
      htracks.pended, fun task htask => absurd htask (hnone task),
      fun task htask => absurd htask (hnone task)⟩

theorem xTaskResumeAll (htracks : Tracks setup state clock)
    (hopen : clock.suspensions ≠ 0) :
    ∃ after, DelayedTasks.xTaskResumeAll setup.priority state = some after ∧
      Tracks setup after clock.resumeAll := by
  rw [DelayedTasks.xTaskResumeAll, Clock.resumeAll]
  by_cases hlast : clock.suspensions = 1
  · have hzero : state.uxSchedulerSuspended - 1 = 0 := by
      rw [htracks.suspensions, hlast]
    obtain ⟨moved, hloop, hmoved⟩ := htracks.release
    obtain ⟨after, hticks, hafter⟩ := hmoved.pendedTicksLoop rfl clock.pended
    have hpended := hmoved.pended
    simp only [hzero, if_true, hloop, hlast]
    rw [hpended]
    change ∃ after, (DelayedTasks.pendedTicksLoop _ clock.pended _).map _ = _ ∧ _
    rw [hticks]
    exact ⟨_, rfl, hafter.lists.frame, hafter.ahead, hafter.unblocks,
      hafter.suspensions, rfl, hafter.resumed, hafter.resumed_suspensions⟩
  · have hmore : state.uxSchedulerSuspended - 1 ≠ 0 := by
      rw [htracks.suspensions]
      omega
    rw [if_neg hlast]
    refine ⟨_, if_neg hmore, htracks.lists.frame, htracks.ahead,
      htracks.unblocks, congrArg (· - 1) htracks.suspensions, htracks.pended,
      htracks.resumed, fun task htask => ?_⟩
    change clock.suspensions - 1 ≠ 0
    omega

theorem suspendAll (htracks : Tracks setup state clock)
    (hfits : clock.suspensions + 1 < 2 ^ 32) :
    Tracks setup (vTaskSuspendAll state)
      { clock with suspensions := clock.suspensions + 1 } where
  lists := htracks.lists.frame
  ahead := htracks.ahead
  unblocks := htracks.unblocks
  suspensions := by
    rw [vTaskSuspendAll, htracks.suspensions]
    exact Nat.mod_eq_of_lt hfits
  pended := htracks.pended
  resumed := htracks.resumed
  resumed_suspensions _ _ := Nat.succ_ne_zero _

theorem tick (htracks : Tracks setup state clock)
    (hfits : clock.pended + 1 < 2 ^ 32) :
    ∃ after, DelayedTasks.xTaskIncrementTick setup.priority state =
        some after ∧
      Tracks setup after (if clock.suspensions = 0 then clock.advance
        else { clock with pended := clock.pended + 1 }) := by
  split
  · rename_i hclosed
    exact htracks.xTaskIncrementTick hclosed
  · rename_i hopen
    rw [DelayedTasks.xTaskIncrementTick,
      if_neg (by rwa [htracks.suspensions])]
    refine ⟨_, rfl, htracks.lists.frame, htracks.ahead, htracks.unblocks,
      htracks.suspensions, ?_, htracks.resumed, htracks.resumed_suspensions⟩
    rw [htracks.pended]
    exact Nat.mod_eq_of_lt hfits

end Tracks

/-! ## Runs -/

section Runs

variable {clock : Clock ι}

theorem Tracks.fits_iff (htracks : Tracks setup state clock)
    (action : Action ι) : Fits state action ↔ clock.Fits action := by
  cases action with
  | tick => rw [Fits, Clock.Fits, htracks.pended]
  | suspendAll => rw [Fits, Clock.Fits, htracks.suspensions]
  | _ => exact Iff.rfl

/-- A call that is made in the condition it is meant for, on both sides. -/
theorem rel_of_iff {α β : Type*} {related : α → β → Prop} {before before' : Prop}
    [Decidable before] [Decidable before'] {result : Option α} {result' : β}
    (hiff : before ↔ before')
    (hrelated : before' → ∃ after, result = some after ∧ related after result') :
    Option.Rel related (if before then result else none)
      (if before' then some result' else none) := by
  by_cases hbefore : before'
  · rw [if_pos (hiff.mpr hbefore), if_pos hbefore]
    obtain ⟨after, rfl, hafter⟩ := hrelated hbefore
    exact .some hafter
  · rw [if_neg (mt hiff.mp hbefore), if_neg hbefore]
    exact .none

theorem Tracks.step (htracks : Tracks setup state clock) (action : Action ι)
    (hfits : clock.Fits action) :
    Option.Rel (Tracks setup) (DelayedTasks.step setup state action)
      (clock.step action) := by
  cases action with
  | create task =>
      refine rel_of_iff ?_ fun habsent => ⟨_, rfl, htracks.create habsent⟩
      rw [htracks.stateList_eq_none, and_iff_left_iff_imp]
      intro habsent
      have hevent := htracks.lists.eventList task
      rwa [htracks.not_resumed task (by rw [habsent]; exact Condition.noConfusion),
        if_neg Bool.false_ne_true] at hevent
  | tick =>
      obtain ⟨after, htick, hafter⟩ := htracks.tick hfits
      rw [DelayedTasks.step, Clock.step, htick, ← apply_ite]
      exact .some hafter
  | suspendAll => exact .some (htracks.suspendAll hfits)
  | resumeAll =>
      exact rel_of_iff (by rw [htracks.suspensions]) htracks.xTaskResumeAll
  | delay task ticksToDelay =>
      refine rel_of_iff (and_congr_left fun _ => htracks.calls_iff) ?_
      rintro ⟨⟨hready, -⟩, hpos, hticks⟩
      exact htracks.sleep hready hpos hticks
  | delayUntil task previousWakeTime timeIncrement =>
      refine rel_of_iff htracks.calls_iff fun hcalls => ?_
      exact htracks.delayUntil hcalls.1 previousWakeTime timeIncrement
  | block task =>
      exact rel_of_iff htracks.calls_iff fun hcalls => htracks.block hcalls.1
  | suspend task =>
      rw [DelayedTasks.step, Clock.step]
      split
      · rename_i hcondition
        obtain ⟨after, hsuspend, hafter⟩ := htracks.suspend hcondition
        rw [hsuspend]
        exact .some hafter
      · rename_i habsent
        rw [vTaskSuspend, Lists.removeState_absent
          (htracks.stateList_eq_none.mpr (not_not.mp habsent))]
        exact .none
  | resume task =>
      obtain ⟨after, hresume, hafter⟩ := htracks.resume task
      rw [DelayedTasks.step, Clock.step, hresume]
      exact .some hafter
  | resumeFromISR task =>
      obtain ⟨after, hresume, hafter⟩ := htracks.resumeFromISR task
      rw [DelayedTasks.step, Clock.step, hresume]
      exact .some hafter
  | abortDelay task =>
      exact rel_of_iff (by rw [htracks.suspensions])
        fun _ => htracks.abortDelay task
  | delete task isRunningOrYielding =>
      rw [DelayedTasks.step, Clock.step]
      split
      · rename_i hcondition
        obtain ⟨after, hdelete, hafter⟩ :=
          htracks.delete hcondition isRunningOrYielding
        rw [hdelete]
        exact .some hafter
      · rename_i habsent
        rw [vTaskDelete, Lists.removeState_absent
          (htracks.stateList_eq_none.mpr (not_not.mp habsent))]
        exact .none

theorem Tracks.of_step (htracks : Tracks setup state clock)
    {action : Action ι} (hfits : clock.Fits action) {after : State ι}
    (hstep : DelayedTasks.step setup state action = some after) :
    ∃ clock', clock.step action = some clock' ∧ Tracks setup after clock' := by
  have hrel := htracks.step action hfits
  rw [hstep] at hrel
  generalize hclock : clock.step action = result at hrel
  cases hrel with
  | some hafter => exact ⟨_, rfl, hafter⟩

theorem tracks_start (setup : Setup ι) :
    Tracks setup (machine setup).start (clockMachine ι).start := by
  have hfree : ∀ item, (initialise setup.lists.lists setup.lists.memory).container
      (.item item) = none := fun item =>
    (item_initialise setup.lists.lists item setup.lists.memory).1.trans
      (setup.lists.container_eq item)
  constructor
  · refine ⟨inOrder_initialise setup.lists _, .inl ⟨rfl, rfl⟩, rfl, ?_,
      fun task => hfree (.state task), fun task => hfree (.event task), ?_⟩
    · exact (Nat.zero_mod _).symm.trans (by rw [← Nat.zero_div (2 ^ 32)]; rfl)
    · intro task wake hwake
      cases hwake
  · intro task wake hwake
    cases hwake
  · intro task wake hwake
    cases hwake
  · rfl
  · rfl
  · intro task hresumed
    cases hresumed
  · intro task hresumed
    cases hresumed

/-- The kernel takes the same steps as the clock as long as its counters do not
wrap: no step gets lost in a list, and none is held up. -/
theorem runs_clock (setup : Setup ι) (actions : List (Action ι)) :
    (∀ state, ((machine setup).restrict Fits).Runs actions state →
      ∃ clock, ((clockMachine ι).restrict Clock.Fits).Runs actions clock ∧
        Tracks setup state clock) ∧
    ∀ clock, ((clockMachine ι).restrict Clock.Fits).Runs actions clock →
      ∃ state, ((machine setup).restrict Fits).Runs actions state ∧
        Tracks setup state clock := by
  refine Machine.Runs.bisimulation ((machine setup).restrict Fits)
    ((clockMachine ι).restrict Clock.Fits) (Tracks setup) (tracks_start setup)
    (fun state clock action htracks => ?_) actions
  change Option.Rel _ (if _ then _ else _) (if _ then _ else _)
  by_cases hfits : clock.Fits action
  · rw [if_pos ((htracks.fits_iff action).mpr hfits), if_pos hfits]
    exact htracks.step action hfits
  · rw [if_neg (mt (htracks.fits_iff action).mp hfits), if_neg hfits]
    exact .none

end Runs

end PicoSched.DelayedTasks
