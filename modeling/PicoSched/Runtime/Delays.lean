import PicoSched.Runtime.DelayedTasks

/-!
# Ticks and delays

No tick gets lost, however long the scheduler is suspended, and a delay ends in
the tick it was meant for, however often the tick count wraps.
-/

namespace PicoSched.DelayedTasks

open CyclicTime KernelList LinkedRing RunTask Transition

variable {ι : Type*} [DecidableEq ι] {setup : Setup ι} {state : State ι}
  {clock clock' : Clock ι} {task : ι} {wake : ℕ}

/-- The task that an action is about. -/
def Action.about : Action ι → Option ι
  | .tick | .suspendAll | .resumeAll => none
  | .create task | .delay task _ | .delayUntil task _ _ | .block task
  | .suspend task | .resume task | .resumeFromISR task | .abortDelay task
  | .delete task _ => some task

/-! ## The clock -/

namespace Clock

/-- Nothing has changed but the task. -/
structure Frame (task : ι) (clock clock' : Clock ι) : Prop where
  now : clock'.now = clock.now
  pended : clock'.pended = clock.pended
  suspensions : clock'.suspensions = clock.suspensions
  condition : ∀ other, other ≠ task →
    clock'.condition other = clock.condition other
  resumed : ∀ other, other ≠ task → clock'.resumed other = clock.resumed other

omit [DecidableEq ι] in
theorem Frame.refl (task : ι) (clock : Clock ι) : Frame task clock clock :=
  ⟨rfl, rfl, rfl, fun _ _ => rfl, fun _ _ => rfl⟩

theorem frame_setCondition (task : ι) (condition : Condition)
    (clock : Clock ι) : Frame task clock (clock.setCondition task condition) :=
  ⟨rfl, rfl, rfl, fun _ hother => Function.update_of_ne hother ..,
    fun _ hother => Function.update_of_ne hother ..⟩

theorem frame_resume (task : ι) (clock : Clock ι) :
    Frame task clock (clock.resume task) := by
  rw [resume]
  split
  · exact frame_setCondition task .ready clock
  · exact .refl task clock

theorem frame_resumeFromISR (task : ι) (clock : Clock ι) :
    Frame task clock (clock.resumeFromISR task) := by
  rw [resumeFromISR]
  split
  · exact frame_resume task clock
  · split
    · exact ⟨rfl, rfl, rfl, fun _ _ => rfl,
        fun _ hother => Function.update_of_ne hother ..⟩
    · exact .refl task clock

theorem frame_abortDelay (task : ι) (clock : Clock ι) :
    Frame task clock (clock.abortDelay task) := by
  rw [abortDelay]
  split
  · exact frame_setCondition task .ready clock
  · exact .refl task clock

theorem frame_delayUntil (task : ι) (previousWakeTime timeIncrement : ℕ)
    (clock : Clock ι) :
    Frame task clock (clock.delayUntil task previousWakeTime timeIncrement) := by
  rw [delayUntil]
  split
  · exact frame_setCondition task _ clock
  · exact .refl task clock

/-- What a step can do. -/
theorem step_cases {action : Action ι} (hstep : clock.step action = some clock') :
    (action = .tick ∧ clock' = if clock.suspensions = 0 then clock.advance
        else { clock with pended := clock.pended + 1 }) ∨
      (action = .suspendAll ∧
        clock' = { clock with suspensions := clock.suspensions + 1 }) ∨
      (action = .resumeAll ∧ clock' = clock.resumeAll) ∨
      ∃ task, action.about = some task ∧ Frame task clock clock' := by
  cases action with
  | tick =>
      rw [step, ← apply_ite] at hstep
      exact .inl ⟨rfl, (Option.some.inj hstep).symm⟩
  | suspendAll => exact .inr (.inl ⟨rfl, (Option.some.inj hstep).symm⟩)
  | resumeAll =>
      obtain ⟨-, ⟨⟩⟩ := Option.ite_none_right_eq_some.mp hstep
      exact .inr (.inr (.inl ⟨rfl, rfl⟩))
  | resume task =>
      obtain rfl := Option.some.inj hstep
      exact .inr (.inr (.inr ⟨task, rfl, frame_resume task clock⟩))
  | resumeFromISR task =>
      obtain rfl := Option.some.inj hstep
      exact .inr (.inr (.inr ⟨task, rfl, frame_resumeFromISR task clock⟩))
  | abortDelay task =>
      obtain ⟨-, ⟨⟩⟩ := Option.ite_none_right_eq_some.mp hstep
      exact .inr (.inr (.inr ⟨task, rfl, frame_abortDelay task clock⟩))
  | delayUntil task previousWakeTime timeIncrement =>
      obtain ⟨-, ⟨⟩⟩ := Option.ite_none_right_eq_some.mp hstep
      exact .inr (.inr (.inr ⟨task, rfl, frame_delayUntil task _ _ clock⟩))
  | create task | delay task | block task | suspend task | delete task =>
      obtain ⟨-, ⟨⟩⟩ := Option.ite_none_right_eq_some.mp hstep
      exact .inr (.inr (.inr ⟨task, rfl, frame_setCondition task _ clock⟩))

/-! ### Elapsed ticks -/

/-- Ticks that have occurred are processed or pended; they are only pended
while the scheduler is suspended. -/
structure Elapsed (ticks : ℕ) (clock : Clock ι) : Prop where
  total : clock.now + clock.pended = ticks
  pended : clock.suspensions = 0 → clock.pended = 0

omit [DecidableEq ι] in
theorem now_iterate_advance (clock : Clock ι) (ticks : ℕ) :
    (advance^[ticks] clock).now = clock.now + ticks := by
  induction ticks generalizing clock with
  | zero => rfl
  | succ ticks ih =>
      rw [Function.iterate_succ_apply, ih]
      change clock.now + 1 + ticks = _
      omega

omit [DecidableEq ι] in
theorem Elapsed.resumeAll {ticks : ℕ} (helapsed : Elapsed ticks clock) :
    Elapsed ticks clock.resumeAll := by
  rw [Clock.resumeAll]
  split
  · constructor
    · change (advance^[clock.pended] _).now + 0 = ticks
      rw [now_iterate_advance]
      exact helapsed.total
    · exact fun _ => rfl
  · rename_i hmore
    refine ⟨helapsed.total, fun hclosed => helapsed.pended ?_⟩
    change clock.suspensions - 1 = 0 at hclosed
    omega

omit [DecidableEq ι] in
theorem Elapsed.frame {ticks : ℕ} (helapsed : Elapsed ticks clock)
    (hframe : Frame task clock clock') : Elapsed ticks clock' where
  total := by
    rw [hframe.now, hframe.pended]
    exact helapsed.total
  pended hclosed := by
    rw [hframe.suspensions] at hclosed
    exact hframe.pended.trans (helapsed.pended hclosed)

theorem Elapsed.step {ticks : ℕ} (helapsed : Elapsed ticks clock)
    {action : Action ι} (hstep : clock.step action = some clock') :
    Elapsed (ticks + if action = .tick then 1 else 0) clock' := by
  rcases step_cases hstep with
    ⟨rfl, rfl⟩ | ⟨rfl, rfl⟩ | ⟨rfl, rfl⟩ | ⟨task, habout, hframe⟩
  · rw [if_pos rfl, ← helapsed.total]
    split
    · rename_i hclosed
      refine ⟨?_, fun _ => helapsed.pended hclosed⟩
      change clock.now + 1 + clock.pended = _
      omega
    · rename_i hopen
      exact ⟨(Nat.add_assoc _ _ _).symm, fun hclosed => absurd hclosed hopen⟩
  · exact ⟨helapsed.total, fun hclosed => absurd hclosed (Nat.succ_ne_zero _)⟩
  · exact helapsed.resumeAll
  · have hother : action ≠ .tick := by
      rintro rfl
      cases habout
    rw [if_neg hother]
    exact helapsed.frame hframe

theorem elapsed_of_runs {actions : List (Action ι)}
    (hruns : ((clockMachine ι).restrict Fits).Runs actions clock) :
    Elapsed (actions.count .tick) clock := by
  induction hruns with
  | nil => exact ⟨rfl, fun _ => rfl⟩
  | cons _ hstep ih =>
      obtain ⟨-, hstep⟩ := Option.ite_none_right_eq_some.mp hstep
      rw [List.count_cons]
      simpa only [beq_iff_eq] using ih.step hstep

/-! ### Delays -/

/-- The task sleeps until its wake time, and is ready from then on. -/
structure Delays (task : ι) (wake : ℕ) (clock : Clock ι) : Prop where
  condition : clock.condition task =
    if clock.now < wake then .asleep wake else .ready
  awake : clock.resumed task = false

omit [DecidableEq ι] in
theorem Delays.advance (hdelays : Delays task wake clock) :
    Delays task wake clock.advance := by
  refine ⟨?_, hdelays.awake⟩
  change (clock.condition task).tick (clock.now + 1) =
    if clock.now + 1 < wake then _ else _
  rw [hdelays.condition]
  by_cases hsleeps : clock.now < wake
  · rw [if_pos hsleeps, Condition.tick]
    by_cases hwake : wake = clock.now + 1
    · rw [if_pos hwake, if_neg (by omega)]
    · rw [if_neg hwake, if_pos (by omega)]
  · rw [if_neg hsleeps, if_neg (by omega)]
    rfl

omit [DecidableEq ι] in
theorem Delays.resumeAll (hdelays : Delays task wake clock) :
    Delays task wake clock.resumeAll := by
  rw [Clock.resumeAll]
  split
  · have hreleased : Delays task wake { clock.release with suspensions := 0 } := by
      refine ⟨?_, rfl⟩
      change (if clock.resumed task then _ else _) = _
      rw [if_neg (by simp [hdelays.awake])]
      exact hdelays.condition
    have hadvanced : ∀ (ticks : ℕ) {clock : Clock ι}, Delays task wake clock →
        Delays task wake (Clock.advance^[ticks] clock) := by
      intro ticks
      induction ticks with
      | zero => exact fun hdelays => hdelays
      | succ ticks ih => exact fun hdelays => ih hdelays.advance
    exact ⟨(hadvanced _ hreleased).condition, (hadvanced _ hreleased).awake⟩
  · exact ⟨hdelays.condition, hdelays.awake⟩

theorem Delays.step (hdelays : Delays task wake clock) {action : Action ι}
    (hother : action.about ≠ some task)
    (hstep : clock.step action = some clock') : Delays task wake clock' := by
  rcases step_cases hstep with
    ⟨rfl, rfl⟩ | ⟨rfl, rfl⟩ | ⟨rfl, rfl⟩ | ⟨other, habout, hframe⟩
  · split
    · exact hdelays.advance
    · exact ⟨hdelays.condition, hdelays.awake⟩
  · exact ⟨hdelays.condition, hdelays.awake⟩
  · exact hdelays.resumeAll
  · have hne : task ≠ other := by
      rintro rfl
      exact hother habout
    refine ⟨?_, ?_⟩
    · rw [hframe.condition task hne, hframe.now]
      exact hdelays.condition
    · rw [hframe.resumed task hne]
      exact hdelays.awake

theorem delays_setCondition (hwake : clock.now < wake) :
    (clock.setCondition task (.asleep wake)).Delays task wake where
  condition := (Function.update_self ..).trans (if_pos hwake).symm
  awake := Function.update_self ..

/-- A delay is left alone by what the other tasks do. -/
theorem Delays.of_runs {first : Action ι} {earlier later : List (Action ι)}
    {before : Clock ι} (hbefore : ((clockMachine ι).restrict Fits).Runs earlier before)
    (hfirst : ∀ after, before.step first = some after → Delays task wake after)
    (hruns : ((clockMachine ι).restrict Fits).Runs (later ++ first :: earlier)
      clock)
    (hothers : ∀ action ∈ later, action.about ≠ some task) :
    Delays task wake clock := by
  induction later generalizing clock with
  | nil =>
      cases hruns with
      | cons hruns hstep =>
          obtain ⟨-, hstep⟩ := Option.ite_none_right_eq_some.mp hstep
          rw [hruns.unique hbefore] at hstep
          exact hfirst _ hstep
  | cons action later ih =>
      cases hruns with
      | cons hruns hstep =>
          obtain ⟨-, hstep⟩ := Option.ite_none_right_eq_some.mp hstep
          refine (ih hruns fun other hother => ?_).step
            (hothers action List.mem_cons_self) hstep
          exact hothers other (List.mem_cons_of_mem _ hother)

end Clock

/-! ## The kernel -/

/-- The ticks of a run that have been processed. -/
def processedTicks (actions : List (Action ι)) (state : State ι) : ℕ :=
  actions.count .tick - state.xPendedTicks

theorem Tracks.processedTicks_eq (htracks : Tracks setup state clock)
    {actions : List (Action ι)}
    (hruns : ((clockMachine ι).restrict Clock.Fits).Runs actions clock) :
    actions.count .tick = clock.now + state.xPendedTicks ∧
      processedTicks actions state = clock.now := by
  have htotal := (Clock.elapsed_of_runs hruns).total
  rw [processedTicks, htracks.pended]
  omega

/-- All tasks have priority 1. -/
def samePriority (ι : Type*) [DecidableEq ι] : Setup ι where
  priority _ := ⟨1, by decide⟩
  lists := {
    lists := [.delayed1, .delayed2, .pendingReady, .waitingTermination,
      .suspended] ++ (List.finRange Kernel.configMaxPriorities).map .ready
    memory := ⟨⟨id, id⟩, fun _ => 0, fun _ => none,
      fun _ => .listEnd .suspended, fun _ => 0⟩
    complete := fun list => by cases list <;> simp
    container_eq := fun _ => rfl
    itemValue_lt := fun _ => Nat.two_pow_pos 32 }

/-- Two tasks of priority 1. -/
def twoTasks : Setup Bool := samePriority Bool

/-- No tick gets lost: each is counted or still pended, and none is pended once
the scheduler runs again. -/
theorem ticks_of_runs (setup : Setup ι) {actions : List (Action ι)}
    (hruns : ((machine setup).restrict Fits).Runs actions state) :
    actions.count .tick = processedTicks actions state + state.xPendedTicks ∧
      state.xTickCount = processedTicks actions state % 2 ^ 32 ∧
      state.xNumOfOverflows =
        processedTicks actions state / 2 ^ 32 % 2 ^ 32 ∧
      (state.uxSchedulerSuspended = 0 → state.xPendedTicks = 0) := by
  obtain ⟨clock, hclock, htracks⟩ := (runs_clock setup actions).1 state hruns
  obtain ⟨htotal, hprocessed⟩ := htracks.processedTicks_eq hclock
  rw [hprocessed, htracks.suspensions]
  refine ⟨htotal, htracks.lists.tickCount, htracks.lists.overflows, ?_⟩
  intro hclosed
  exact htracks.pended.trans ((Clock.elapsed_of_runs hclock).pended hclosed)

/-- A tick occurs while the scheduler is suspended. -/
def tickWhileSuspended : List (Action Bool) :=
  [.tick, .suspendAll, .tick, .create false]

theorem tickWhileSuspended_ticks : ∃ state : State Bool,
    state.xPendedTicks = 1 ∧
      tickWhileSuspended.count .tick =
        processedTicks tickWhileSuspended state + state.xPendedTicks ∧
      state.xTickCount = processedTicks tickWhileSuspended state % 2 ^ 32 ∧
      state.xNumOfOverflows =
        processedTicks tickWhileSuspended state / 2 ^ 32 % 2 ^ 32 ∧
      (state.uxSchedulerSuspended = 0 → state.xPendedTicks = 0) := by
  obtain ⟨state, hruns, hpended⟩ := Machine.exists_runs
    ((machine twoTasks).restrict Fits) tickWhileSuspended (fun state => state.xPendedTicks = 1)
    (by decide)
  exact ⟨state, of_decide_eq_true hpended, ticks_of_runs twoTasks hruns⟩

/-- A task whose delay is left alone is in a delayed list until the wake time,
and in its ready list from then on. -/
theorem Tracks.delays (htracks : Tracks setup state clock)
    (hdelays : clock.Delays task wake) :
    (isBlocked task state = true ↔ clock.now < wake) ∧
      (wake ≤ clock.now →
        state.stateList task = some (.ready (setup.priority task))) := by
  rw [htracks.isBlocked_iff, hdelays.condition, htracks.lists.stateList,
    hdelays.condition]
  constructor
  · split
    · rename_i hsleeps
      exact iff_of_true ⟨wake, rfl⟩ hsleeps
    · rename_i hawake
      exact iff_of_false (fun ⟨_, hasleep⟩ => Condition.noConfusion hasleep) hawake
  · intro hwake
    rw [if_neg (not_lt.mpr hwake)]
    rfl

theorem exists_tracks {actions : List (Action ι)}
    (hruns : ((machine setup).restrict Fits).Runs actions state) :
    ∃ clock, Tracks setup state clock :=
  ((runs_clock setup actions).1 state hruns).imp fun _ h => h.2

/-- The value of the state list item of a task. -/
def State.wakeTime (state : State ι) (task : ι) : ℕ :=
  state.memory.itemValue (.item (.state task))

/-- The delayed lists at any time: each is linked in the order of the wake
times, which are ahead of the tick count in one list and behind the wrap in the
other.  No wake time is missed by the next unblock time, and nobody is left in
the delayed list when the tick count is about to wrap. -/
theorem delayed_lists (setup : Setup ι) {actions : List (Action ι)}
    (hruns : ((machine setup).restrict Fits).Runs actions state) :
    (∀ list, list = state.pxDelayedTaskList ∨
        list = state.pxOverflowDelayedTaskList →
      ∃ items, Ring state.memory.links (.listEnd list) (nodes items) ∧
        (∀ item, state.memory.container (.item item) = some list ↔
          item ∈ items) ∧
        ItemLists.Sorted (fun item => state.memory.itemValue (.item item))
          items) ∧
    (∀ task, state.stateList task = some state.pxDelayedTaskList →
      state.xTickCount < state.wakeTime task ∧
        state.xNextTaskUnblockTime ≤ state.wakeTime task) ∧
    (∀ task, state.stateList task = some state.pxOverflowDelayedTaskList →
      state.wakeTime task < state.xTickCount) ∧
    (state.xTickCount + 1 = 2 ^ 32 →
      state.memory.numberOfItems state.pxDelayedTaskList = 0) := by
  obtain ⟨clock, htracks⟩ := exists_tracks hruns
  have hlists := htracks.lists
  have hdelayed : ∀ task, state.stateList task = some state.pxDelayedTaskList →
      state.xTickCount < state.wakeTime task ∧
        state.xNextTaskUnblockTime ≤ state.wakeTime task := by
    intro task hlist
    obtain ⟨wake, hwake, hepoch⟩ := hlists.stateList_eq_delayed.mp hlist
    rw [State.wakeTime, (hlists.wakeTime task wake hwake).2, hlists.tickCount]
    refine ⟨?_, htracks.unblocks task wake hwake hepoch⟩
    refine not_le.mp (mt (mod_le_iff hepoch).mp (not_le.mpr ?_))
    exact htracks.ahead task wake hwake
  refine ⟨fun list hlist => ?_, hdelayed, fun task hlist => ?_, fun hwrap => ?_⟩
  · obtain ⟨store, hrep, hsorted⟩ := hlists.inOrder
    have hordered : IsDelayedList list := by
      rcases hlists.pointers with ⟨hfirst, hsecond⟩ | ⟨hfirst, hsecond⟩ <;>
        rw [hfirst, hsecond] at hlist
      · exact hlist
      · exact hlist.symm
    refine ⟨store.contents list, hrep.ring list,
      fun item => hrep.container item list, ?_⟩
    exact (hsorted list hordered).congr fun item _ => hrep.itemValue item
  · obtain ⟨wake, hwake, hepoch⟩ := hlists.stateList_eq_overflow hlist
    have hvalue := hlists.wakeTime task wake hwake
    rw [State.wakeTime, hvalue.2, hlists.tickCount]
    exact hvalue.1.mod_lt_iff.mpr hepoch
  · rcases hlists.head_delayed with ⟨hempty, -⟩ | ⟨-, task, wake, -, hwake, hepoch, -⟩
    · exact hempty
    · have hlist := hlists.stateList_eq_delayed.mpr ⟨wake, hwake, hepoch⟩
      have hlt := (hdelayed task hlist).1
      rw [State.wakeTime, (hlists.wakeTime task wake hwake).2] at hlt
      have hbound := Nat.mod_lt wake (Nat.two_pow_pos 32)
      omega

/-- Both tasks delay, the one that calls first for longer. -/
def twoDelays : List (Action Bool) :=
  [.resumeAll, .delay true 2, .delay false 5, .suspendAll, .tick, .create true, .create false]

theorem twoDelays_lists : ∃ state : State Bool,
    state.memory.numberOfItems state.pxDelayedTaskList = 2 ∧
    (∀ list, list = state.pxDelayedTaskList ∨
        list = state.pxOverflowDelayedTaskList →
      ∃ items, Ring state.memory.links (.listEnd list) (nodes items) ∧
        (∀ item, state.memory.container (.item item) = some list ↔
          item ∈ items) ∧
        ItemLists.Sorted (fun item => state.memory.itemValue (.item item))
          items) ∧
    (∀ task, state.stateList task = some state.pxDelayedTaskList →
      state.xTickCount < state.wakeTime task ∧
        state.xNextTaskUnblockTime ≤ state.wakeTime task) ∧
    (∀ task, state.stateList task = some state.pxOverflowDelayedTaskList →
      state.wakeTime task < state.xTickCount) ∧
    (state.xTickCount + 1 = 2 ^ 32 →
      state.memory.numberOfItems state.pxDelayedTaskList = 0) := by
  obtain ⟨state, hruns, hitems⟩ := Machine.exists_runs
    ((machine twoTasks).restrict Fits) twoDelays
    (fun state => state.memory.numberOfItems state.pxDelayedTaskList = 2)
    (by decide)
  exact ⟨state, of_decide_eq_true hitems, delayed_lists twoTasks hruns⟩

section Delay

variable {earlier : List (Action ι)} {before : State ι}

/-- `vTaskDelay` blocks the task until the number of ticks has been processed,
and then it is ready, whatever the other tasks and the ticks do meanwhile. -/
theorem delay_exact (setup : Setup ι) (later : List (Action ι))
    {ticksToDelay : ℕ}
    (hbefore : ((machine setup).restrict Fits).Runs earlier before)
    (hruns : ((machine setup).restrict Fits).Runs
      (later ++ .delay task ticksToDelay :: earlier) state)
    (hothers : ∀ action ∈ later, action.about ≠ some task) :
    (isBlocked task state = true ↔
      processedTicks (later ++ .delay task ticksToDelay :: earlier) state <
        processedTicks earlier before + ticksToDelay) ∧
    (processedTicks earlier before + ticksToDelay ≤
        processedTicks (later ++ .delay task ticksToDelay :: earlier) state →
      state.stateList task = some (.ready (setup.priority task))) := by
  obtain ⟨clock, hclock, htracks⟩ := (runs_clock setup _).1 state hruns
  obtain ⟨start, hstart, htracks'⟩ := (runs_clock setup _).1 before hbefore
  rw [(htracks.processedTicks_eq hclock).2,
    (htracks'.processedTicks_eq hstart).2]
  refine htracks.delays (Clock.Delays.of_runs hstart ?_ hclock hothers)
  intro after hstep
  obtain ⟨⟨-, hpos, -⟩, ⟨⟩⟩ := Option.ite_none_right_eq_some.mp hstep
  exact Clock.delays_setCondition (Nat.lt_add_of_pos_right hpos)

theorem delay_exact_two : ∃ before state : State Bool,
    state.xTickCount = 2 ∧
      (isBlocked false state = true ↔
        processedTicks [.tick, .resumeAll, .tick, .delay false 3, .suspendAll,
            .create false] state <
          processedTicks [.suspendAll, .create false] before + 3) ∧
      (processedTicks [.suspendAll, .create false] before + 3 ≤
          processedTicks [.tick, .resumeAll, .tick, .delay false 3, .suspendAll,
            .create false] state →
        state.stateList false = some (.ready (twoTasks.priority false))) := by
  obtain ⟨before, hbefore, -⟩ := Machine.exists_runs
    ((machine twoTasks).restrict Fits) [.suspendAll, .create false] (fun _ => true) (by decide)
  obtain ⟨state, hruns, hcount⟩ := Machine.exists_runs
    ((machine twoTasks).restrict Fits) [.tick, .resumeAll, .tick, .delay false 3, .suspendAll, .create false]
    (fun state => state.xTickCount = 2) (by decide)
  exact ⟨before, state, of_decide_eq_true hcount,
    delay_exact twoTasks [.tick, .resumeAll, .tick] hbefore hruns
      (by decide)⟩

/-- `xTaskDelayUntil` with a previous wake time less than a turn of the tick
count ago. -/
theorem delayUntilWake_eq {now previous increment : ℕ}
    (hprevious : Within (2 ^ 32) previous now) (hlt : increment < 2 ^ 32) :
    Clock.delayUntilWake now (previous % 2 ^ 32) increment =
      if now < previous + increment then some (previous + increment)
      else none := by
  have hnext : Within (2 ^ 32) previous (previous + increment) :=
    ⟨Nat.le_add_right _ _, Nat.add_lt_add_left hlt _⟩
  have hresult : xTaskDelayUntil (tickCount now) (previous % 2 ^ 32) increment =
      ((previous + increment) % 2 ^ 32,
        decide (now < previous + increment)) := by
    rw [xTaskDelayUntil, tickCount, Nat.mod_add_mod]
    have horder := hprevious.lt_iff hnext
    split
    · rename_i hwrapped
      rw [if_pos hwrapped] at horder
      exact congrArg (Prod.mk _) (decide_eq_decide.mpr horder.symm)
    · rename_i hwrapped
      rw [if_neg hwrapped] at horder
      exact congrArg (Prod.mk _) (decide_eq_decide.mpr horder.symm)
  rw [Clock.delayUntilWake, hresult]
  by_cases hsleep : now < previous + increment
  · have hwait : Within (2 ^ 32) now (previous + increment) :=
      ⟨hsleep.le, hnext.2.trans_le (Nat.add_le_add_right hprevious.1 _)⟩
    rw [if_pos (decide_eq_true hsleep), if_pos hsleep]
    exact congrArg some hwait.add_wait
  · rw [if_neg (by simpa using hsleep), if_neg hsleep]

/-- `xTaskDelayUntil` blocks the task until its previous wake time plus the
increment, if that is still ahead. -/
theorem delayUntil_exact (setup : Setup ι) (later : List (Action ι))
    {previous increment : ℕ}
    (hbefore : ((machine setup).restrict Fits).Runs earlier before)
    (hprevious : previous ≤ processedTicks earlier before)
    (hturn : processedTicks earlier before < previous + 2 ^ 32)
    (hlt : increment < 2 ^ 32)
    (hruns : ((machine setup).restrict Fits).Runs
      (later ++ .delayUntil task (previous % 2 ^ 32) increment :: earlier) state)
    (hothers : ∀ action ∈ later, action.about ≠ some task) :
    (isBlocked task state = true ↔
      processedTicks
          (later ++ .delayUntil task (previous % 2 ^ 32) increment :: earlier)
          state < previous + increment) ∧
    (previous + increment ≤
        processedTicks
          (later ++ .delayUntil task (previous % 2 ^ 32) increment :: earlier)
          state →
      state.stateList task = some (.ready (setup.priority task))) := by
  obtain ⟨clock, hclock, htracks⟩ := (runs_clock setup _).1 state hruns
  obtain ⟨start, hstart, htracks'⟩ := (runs_clock setup _).1 before hbefore
  rw [(htracks'.processedTicks_eq hstart).2] at hprevious hturn
  rw [(htracks.processedTicks_eq hclock).2]
  refine htracks.delays (Clock.Delays.of_runs hstart ?_ hclock hothers)
  intro after hstep
  obtain ⟨⟨hready, -⟩, ⟨⟩⟩ := Option.ite_none_right_eq_some.mp hstep
  rw [Clock.delayUntil, delayUntilWake_eq ⟨hprevious, hturn⟩ hlt]
  by_cases hsleep : start.now < previous + increment
  · rw [if_pos hsleep]
    exact Clock.delays_setCondition hsleep
  · rw [if_neg hsleep]
    refine ⟨hready.trans (if_neg hsleep).symm, htracks'.not_resumed task ?_⟩
    rw [hready]
    exact Condition.noConfusion

theorem delayUntil_exact_two : ∃ state : State Bool,
    state.xTickCount = 3 ∧
      (isBlocked false state = true ↔
        processedTicks [.tick, .tick, .resumeAll,
          .delayUntil false (0 % 2 ^ 32) 3, .suspendAll, .tick, .create false]
            state < 0 + 3) ∧
      (0 + 3 ≤ processedTicks [.tick, .tick, .resumeAll,
          .delayUntil false (0 % 2 ^ 32) 3, .suspendAll, .tick, .create false] state →
        state.stateList false = some (.ready (twoTasks.priority false))) := by
  obtain ⟨before, hbefore, hprocessed⟩ := Machine.exists_runs
    ((machine twoTasks).restrict Fits) [.suspendAll, .tick, .create false]
    (fun state => processedTicks [.suspendAll, .tick, .create false] state = 1)
    (by decide)
  obtain ⟨state, hruns, hcount⟩ := Machine.exists_runs
    ((machine twoTasks).restrict Fits) [.tick, .tick, .resumeAll, .delayUntil false (0 % 2 ^ 32) 3,
      .suspendAll, .tick, .create false]
    (fun state => state.xTickCount = 3) (by decide)
  refine ⟨state, of_decide_eq_true hcount, delayUntil_exact twoTasks
    [.tick, .tick, .resumeAll] hbefore (Nat.zero_le _) ?_ (by decide)
    hruns (by decide)⟩
  rw [of_decide_eq_true hprocessed]
  decide

end Delay

end PicoSched.DelayedTasks
