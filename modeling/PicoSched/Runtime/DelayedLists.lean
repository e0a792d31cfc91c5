import PicoSched.Lib.CyclicTime
import PicoSched.Runtime.OrderedLists
import PicoSched.Runtime.WakeTimes

/-!
# The tasks in the lists

Which list holds a task in which condition, and what the operations of the
timekeeping do to that.  The loops of the kernel end, and none of its list
operations meets an item that is not where it should be.
-/

namespace PicoSched.DelayedTasks

open CyclicTime Kernel KernelList RunTask

variable {ι : Type*} [DecidableEq ι] {setup : Setup ι} {state : State ι}
  {now : ℕ} {condition : ι → Condition} {resumed : ι → Bool} {task : ι}

/-! ## Lists and conditions -/

/-- The list that the state list item of a task belongs into.  A task that
sleeps into the next epoch of the tick count is in the overflow list. -/
def place (setup : Setup ι) (state : State ι) (now : ℕ) (task : ι) :
    Condition → Option ListName
  | .absent => none
  | .ready => some (.ready (setup.priority task))
  | .asleep wake =>
      some (if wake / 2 ^ 32 = now / 2 ^ 32 then state.pxDelayedTaskList
        else state.pxOverflowDelayedTaskList)
  | .suspended => some .suspended
  | .deleted => some .waitingTermination

/-- The lists kept by their values. -/
def IsDelayedList (list : ListName) : Prop :=
  list = .delayed1 ∨ list = .delayed2

/-- The lists hold the tasks in their conditions at a tick. -/
structure Lists (setup : Setup ι) (state : State ι) (now : ℕ)
    (condition : ι → Condition) (resumed : ι → Bool) : Prop where
  inOrder : InOrder IsDelayedList state.memory
  pointers :
    state.pxDelayedTaskList = .delayed1 ∧
        state.pxOverflowDelayedTaskList = .delayed2 ∨
      state.pxDelayedTaskList = .delayed2 ∧
        state.pxOverflowDelayedTaskList = .delayed1
  tickCount : state.xTickCount = now % 2 ^ 32
  overflows : state.xNumOfOverflows = now / 2 ^ 32 % 2 ^ 32
  stateList : ∀ task,
    state.stateList task = place setup state now task (condition task)
  eventList : ∀ task, state.eventList task =
    if resumed task then some .pendingReady else none
  wakeTime : ∀ task wake, condition task = .asleep wake →
    Within (2 ^ 32) now wake ∧
      state.memory.itemValue (.item (.state task)) = wake % 2 ^ 32

theorem removeItem_eq (item : Item ι) (state : State ι) :
    state.removeItem item =
      ((uxListRemove item state.memory).map Prod.snd).map fun memory =>
        { state with memory := memory } := by
  rw [Option.map_map]
  rfl

namespace Lists

/-- The state list item of a task is moved to the place of its new condition,
which is not a delayed list. -/
theorem moved (hlists : Lists setup state now condition resumed)
    {memory : Memory (Item ι) ListName} (target : Condition)
    (hinOrder : InOrder IsDelayedList memory)
    (hcontainer : memory.container =
      Function.update state.memory.container (.item (.state task))
        (place setup state now task target))
    (hvalue : memory.itemValue = state.memory.itemValue)
    (htarget : ∀ wake, target = .asleep wake → Within (2 ^ 32) now wake ∧
      state.memory.itemValue (.item (.state task)) = wake % 2 ^ 32) :
    Lists setup { state with memory := memory } now
      (Function.update condition task target) resumed where
  inOrder := hinOrder
  pointers := hlists.pointers
  tickCount := hlists.tickCount
  overflows := hlists.overflows
  stateList other := by
    change memory.container _ = _
    rw [hcontainer]
    by_cases hother : other = task
    · subst hother
      rw [Function.update_self, Function.update_self]
      rfl
    · rw [Function.update_of_ne (by simpa using hother),
        Function.update_of_ne hother]
      exact hlists.stateList other
  eventList other := by
    change memory.container _ = _
    rw [hcontainer, Function.update_of_ne (by simp)]
    exact hlists.eventList other
  wakeTime other wake hother := by
    change _ ∧ memory.itemValue _ = _
    rw [hvalue]
    by_cases heq : other = task
    · subst heq
      rw [Function.update_self] at hother
      exact htarget wake hother
    · rw [Function.update_of_ne heq] at hother
      exact hlists.wakeTime other wake hother

/-! ### Removal -/

theorem removeState (hlists : Lists setup state now condition resumed)
    {list : ListName} (hlist : state.stateList task = some list) :
    ∃ memory, state.removeItem (.state task) =
        some { state with memory := memory } ∧
      Takes list (.state task) state.memory memory ∧
      Lists setup { state with memory := memory } now
        (Function.update condition task .absent) resumed := by
  obtain ⟨memory, hremove, hinOrder, htakes⟩ :=
    hlists.inOrder.uxListRemove hlist
  refine ⟨memory, ?_, htakes, ?_⟩
  · rw [removeItem_eq, hremove]
    rfl
  · exact hlists.moved .absent hinOrder htakes.container htakes.itemValue
      (fun _ hwake => by cases hwake)

theorem removeState_absent (hlist : state.stateList task = none) :
    state.removeItem (.state task) = none := by
  rw [State.removeItem, uxListRemove_eq_none hlist]
  rfl

/-- The event list item of a task is in the pending ready list or in none. -/
theorem eventMoved (hlists : Lists setup state now condition resumed)
    {memory : Memory (Item ι) ListName} {isResumed : Bool}
    (hinOrder : InOrder IsDelayedList memory)
    (hcontainer : memory.container =
      Function.update state.memory.container (.item (.event task))
        (if isResumed then some .pendingReady else none))
    (hvalue : memory.itemValue = state.memory.itemValue) :
    Lists setup { state with memory := memory } now condition
      (Function.update resumed task isResumed) where
  inOrder := hinOrder
  pointers := hlists.pointers
  tickCount := hlists.tickCount
  overflows := hlists.overflows
  stateList other := by
    change memory.container _ = _
    rw [hcontainer, Function.update_of_ne (by simp)]
    exact hlists.stateList other
  eventList other := by
    change memory.container _ = _
    rw [hcontainer]
    by_cases hother : other = task
    · subst hother
      rw [Function.update_self, Function.update_self]
    · rw [Function.update_of_ne (by simpa using hother),
        Function.update_of_ne hother]
      exact hlists.eventList other
  wakeTime other wake hother := by
    change _ ∧ memory.itemValue _ = _
    rw [hvalue]
    exact hlists.wakeTime other wake hother

theorem removePending (hlists : Lists setup state now condition resumed)
    (hresumed : resumed task = true) :
    ∃ memory, state.removeItem (.event task) =
        some { state with memory := memory } ∧
      Takes .pendingReady (.event task) state.memory memory ∧
      Lists setup { state with memory := memory } now condition
        (Function.update resumed task false) := by
  have hlist := hlists.eventList task
  rw [hresumed, if_pos rfl] at hlist
  obtain ⟨memory, hremove, hinOrder, htakes⟩ :=
    hlists.inOrder.uxListRemove hlist
  refine ⟨memory, ?_, htakes, ?_⟩
  · rw [removeItem_eq, hremove]
    rfl
  · exact hlists.eventMoved hinOrder htakes.container htakes.itemValue

theorem removeEvent (hlists : Lists setup state now condition resumed)
    (task : ι) :
    ∃ memory, state.removeEvent task = some { state with memory := memory } ∧
      Lists setup { state with memory := memory } now condition
        (Function.update resumed task false) := by
  have hlist := hlists.eventList task
  rw [State.removeEvent]
  cases hresumed : resumed task with
  | false =>
      rw [hresumed, if_neg Bool.false_ne_true] at hlist
      rw [if_pos hlist]
      refine ⟨state.memory, rfl, ?_⟩
      rw [← hresumed, Function.update_eq_self]
      exact hlists
  | true =>
      rw [hresumed, if_pos rfl] at hlist
      rw [if_neg (by simp [hlist])]
      obtain ⟨memory, hremove, -, hafter⟩ := hlists.removePending hresumed
      exact ⟨memory, hremove, hafter⟩

/-! ### Insertion -/

/-- A task that has been taken off its list is appended to another. -/
theorem insertEnd
    (hlists : Lists setup state now (Function.update condition task .absent)
      resumed) {list : ListName} (target : Condition)
    (hplace : place setup state now task target = some list)
    (hlist : ¬IsDelayedList list) (hawake : ∀ wake, target ≠ .asleep wake) :
    Lists setup (state.insertEnd list (.state task)) now
      (Function.update condition task target) resumed := by
  have hfree := hlists.stateList task
  rw [Function.update_self] at hfree
  have hputs := puts_vListInsertEnd list (.state task) state.memory
  have hmoved := hlists.moved target (hlists.inOrder.vListInsertEnd hlist hfree)
    (hplace ▸ hputs.container) hputs.itemValue
    (fun wake hwake => absurd hwake (hawake wake))
  rwa [Function.update_idem] at hmoved

theorem addToReady
    (hlists : Lists setup state now (Function.update condition task .absent)
      resumed) :
    Lists setup (prvAddTaskToReadyList setup.priority task state) now
      (Function.update condition task .ready) resumed :=
  hlists.insertEnd .ready rfl (by simp [IsDelayedList]) (fun _ hwake => by cases hwake)

theorem insertPending (hlists : Lists setup state now condition resumed)
    (hresumed : resumed task = false) :
    Lists setup (state.insertEnd .pendingReady (.event task)) now condition
      (Function.update resumed task true) := by
  have hfree := hlists.eventList task
  rw [hresumed, if_neg Bool.false_ne_true] at hfree
  have hputs := puts_vListInsertEnd .pendingReady (.event task) state.memory
  exact hlists.eventMoved
    (hlists.inOrder.vListInsertEnd (by simp [IsDelayedList]) hfree)
    hputs.container hputs.itemValue

/-- The value of a task that is in no list is of no matter. -/
theorem setItemValue
    (hlists : Lists setup state now (Function.update condition task .absent)
      resumed) {value : ℕ} (hvalue : value ≤ portMaxDelay) :
    Lists setup { state with
        memory := state.memory.setItemValue (.item (.state task)) value } now
      (Function.update condition task .absent) resumed where
  inOrder := by
    refine hlists.inOrder.setItemValue hvalue fun list _ heq => ?_
    have hfree := hlists.stateList task
    rw [Function.update_self] at hfree
    cases hfree.symm.trans heq
  pointers := hlists.pointers
  tickCount := hlists.tickCount
  overflows := hlists.overflows
  stateList := hlists.stateList
  eventList := hlists.eventList
  wakeTime other wake hother := by
    have hne : other ≠ task := by
      rintro rfl
      rw [Function.update_self] at hother
      cases hother
    change _ ∧ Function.update state.memory.itemValue _ _ _ = _
    rw [Function.update_of_ne (by simpa using hne)]
    exact hlists.wakeTime other wake hother

/-- A task that has been taken off its list is put in the order of its wake
time into the list of the epoch. -/
theorem insertDelayed
    (hlists : Lists setup state now (Function.update condition task .absent)
      resumed) (list : ListName) {wake : ℕ}
    (hplace : place setup state now task (.asleep wake) = some list)
    (hwithin : Within (2 ^ 32) now wake) :
    ∃ memory, State.insert list (.state task) { state with
          memory := state.memory.setItemValue (.item (.state task))
            (wake % 2 ^ 32) } =
        some { state with memory := memory } ∧
      Lists setup { state with memory := memory } now
        (Function.update condition task (.asleep wake)) resumed := by
  have hset := hlists.setItemValue
    (Nat.le_pred_of_lt (Nat.mod_lt wake (Nat.two_pow_pos 32)))
  have hfree := hset.stateList task
  rw [Function.update_self] at hfree
  obtain ⟨memory, hinsert, hinOrder, hputs⟩ :=
    hset.inOrder.vListInsert list hfree
  refine ⟨memory, ?_, ?_⟩
  · rw [State.insert, hinsert]
    rfl
  · have hmoved := hset.moved (.asleep wake) hinOrder
      (hplace.symm ▸ hputs.container) hputs.itemValue (fun other hother => by
        obtain rfl := Condition.asleep.inj hother
        exact ⟨hwithin, Function.update_self ..⟩)
    rwa [Function.update_idem] at hmoved

/-! ### The delayed list -/

theorem delayed_ne (hlists : Lists setup state now condition resumed)
    (list : ListName) (hlist : ¬IsDelayedList list) :
    list ≠ state.pxDelayedTaskList ∧ list ≠ state.pxOverflowDelayedTaskList := by
  rcases hlists.pointers with ⟨hdelayed, hoverflow⟩ | ⟨hdelayed, hoverflow⟩ <;>
    rw [hdelayed, hoverflow]
  · exact ⟨fun heq => hlist (.inl heq), fun heq => hlist (.inr heq)⟩
  · exact ⟨fun heq => hlist (.inr heq), fun heq => hlist (.inl heq)⟩

theorem overflow_ne_delayed
    (hlists : Lists setup state now condition resumed) :
    state.pxOverflowDelayedTaskList ≠ state.pxDelayedTaskList := by
  rcases hlists.pointers with ⟨hdelayed, hoverflow⟩ | ⟨hdelayed, hoverflow⟩ <;>
    simp [hdelayed, hoverflow]

/-- The delayed list holds the tasks that wake before the tick count wraps. -/
theorem stateList_eq_delayed
    (hlists : Lists setup state now condition resumed) :
    state.stateList task = some state.pxDelayedTaskList ↔
      ∃ wake, condition task = .asleep wake ∧ wake / 2 ^ 32 = now / 2 ^ 32 := by
  have hother : ∀ list, ¬IsDelayedList list →
      (some list : Option ListName) ≠ some state.pxDelayedTaskList :=
    fun list hlist heq =>
      (hlists.delayed_ne list hlist).1 (Option.some.inj heq)
  rw [hlists.stateList]
  cases hcondition : condition task with
  | asleep wake =>
      by_cases hepoch : wake / 2 ^ 32 = now / 2 ^ 32
      · rw [place, if_pos hepoch]
        exact iff_of_true rfl ⟨wake, rfl, hepoch⟩
      · rw [place, if_neg hepoch]
        refine iff_of_false
          (fun heq => hlists.overflow_ne_delayed (Option.some.inj heq)) ?_
        rintro ⟨_, ⟨⟩, hsame⟩
        exact hepoch hsame
  | _ => simp_all [place, IsDelayedList]

theorem stateList_eq_overflow
    (hlists : Lists setup state now condition resumed)
    (hlist : state.stateList task = some state.pxOverflowDelayedTaskList) :
    ∃ wake, condition task = .asleep wake ∧
      wake / 2 ^ 32 = now / 2 ^ 32 + 1 := by
  have hother : ∀ list, ¬IsDelayedList list →
      (some list : Option ListName) ≠ some state.pxOverflowDelayedTaskList :=
    fun list hlist heq => (hlists.delayed_ne list hlist).2 (Option.some.inj heq)
  have hstate := hlists.stateList task
  rw [hlist] at hstate
  cases hcondition : condition task with
  | asleep wake =>
      have hwithin := (hlists.wakeTime task wake hcondition).1
      refine ⟨wake, rfl, hwithin.epoch.resolve_left fun hsame => ?_⟩
      rw [hcondition, place, if_pos hsame] at hstate
      exact hlists.overflow_ne_delayed (Option.some.inj hstate)
  | absent =>
      rw [hcondition] at hstate
      cases hstate
  | ready | suspended | deleted =>
      rw [hcondition] at hstate
      exact absurd hstate.symm (hother _ (by simp [IsDelayedList]))

/-- The head of the delayed list is the task that wakes first. -/
theorem head_delayed (hlists : Lists setup state now condition resumed) :
    state.memory.numberOfItems state.pxDelayedTaskList = 0 ∧
        (∀ task wake, condition task = .asleep wake →
          wake / 2 ^ 32 ≠ now / 2 ^ 32) ∨
      state.memory.numberOfItems state.pxDelayedTaskList ≠ 0 ∧
        ∃ task wake, state.memory.links.next
            (.listEnd state.pxDelayedTaskList) = .item (.state task) ∧
          condition task = .asleep wake ∧ wake / 2 ^ 32 = now / 2 ^ 32 ∧
          ∀ other wake', condition other = .asleep wake' →
            wake' / 2 ^ 32 = now / 2 ^ 32 → wake ≤ wake' := by
  rcases hlists.inOrder.head state.pxDelayedTaskList with
    ⟨hcount, hnone⟩ | ⟨hcount, item, hnext, hlist, hleast⟩
  · refine .inl ⟨hcount, fun task wake hwake hepoch => ?_⟩
    exact hnone _ (hlists.stateList_eq_delayed.mpr ⟨wake, hwake, hepoch⟩)
  · refine .inr ⟨hcount, ?_⟩
    cases item with
    | event task =>
        have hpending := hlists.eventList task
        rw [State.eventList, hlist] at hpending
        have hne := (hlists.delayed_ne .pendingReady
          (by simp [IsDelayedList])).1
        split at hpending
        · exact absurd (Option.some.inj hpending).symm hne
        · cases hpending
    | state task =>
        obtain ⟨wake, hwake, hepoch⟩ := hlists.stateList_eq_delayed.mp hlist
        refine ⟨task, wake, hnext, hwake, hepoch, fun other wake' hother hepoch' => ?_⟩
        have hordered : IsDelayedList state.pxDelayedTaskList :=
          hlists.pointers.imp And.left And.left
        have hvalue := hleast hordered _
          (hlists.stateList_eq_delayed.mpr ⟨wake', hother, hepoch'⟩)
        rw [(hlists.wakeTime task wake hwake).2,
          (hlists.wakeTime other wake' hother).2] at hvalue
        exact (mod_le_iff (hepoch.trans hepoch'.symm)).mp hvalue

end Lists

/-- The next unblock time is not past a wake time of the epoch. -/
def UnblocksInTime (state : State ι) (now : ℕ) (condition : ι → Condition) :
    Prop :=
  ∀ task wake, condition task = .asleep wake →
    wake / 2 ^ 32 = now / 2 ^ 32 → state.xNextTaskUnblockTime ≤ wake % 2 ^ 32

/-- A task that does not sleep needs not be unblocked. -/
theorem UnblocksInTime.awake (hunblocks : UnblocksInTime state now condition)
    {after : State ι} {target : Condition}
    (hnext : after.xNextTaskUnblockTime = state.xNextTaskUnblockTime)
    (hawake : ∀ wake, target ≠ .asleep wake) :
    UnblocksInTime after now (Function.update condition task target) := by
  intro other wake hother hepoch
  by_cases heq : other = task
  · subst heq
    rw [Function.update_self] at hother
    exact absurd hother (hawake wake)
  · rw [Function.update_of_ne heq] at hother
    rw [hnext]
    exact hunblocks other wake hother hepoch

namespace Lists

/-- The lists do not depend on the other variables. -/
theorem frame (hlists : Lists setup state now condition resumed)
    {next calls pended : ℕ} :
    Lists setup { state with
        xNextTaskUnblockTime := next
        uxSchedulerSuspended := calls
        xPendedTicks := pended } now condition resumed :=
  ⟨hlists.inOrder, hlists.pointers, hlists.tickCount, hlists.overflows,
    hlists.stateList, hlists.eventList, hlists.wakeTime⟩

theorem reset (hlists : Lists setup state now condition resumed) :
    Lists setup (prvResetNextTaskUnblockTime state) now condition resumed :=
  hlists.frame

theorem unblocksInTime_reset
    (hlists : Lists setup state now condition resumed) :
    UnblocksInTime (prvResetNextTaskUnblockTime state) now condition := by
  intro task wake hwake hepoch
  change (if _ then _ else _) ≤ _
  rcases hlists.head_delayed with
    ⟨-, hnone⟩ | ⟨hcount, first, wake', hnext, hfirst, hepoch', hleast⟩
  · exact absurd hepoch (hnone task wake hwake)
  · rw [if_neg hcount, hnext, (hlists.wakeTime first wake' hfirst).2]
    exact (mod_le_iff (hepoch'.trans hepoch.symm)).mpr
      (hleast task wake hwake hepoch)

end Lists

/-! ## Ticks -/

/-- Every sleeping task is still to wake. -/
def Ahead (now : ℕ) (condition : ι → Condition) : Prop :=
  ∀ task wake, condition task = .asleep wake → now < wake

omit [DecidableEq ι] in
theorem Ahead.tick_eq (hahead : Ahead now condition) :
    (fun task => (condition task).tick now) = condition := by
  funext task
  cases hcondition : condition task with
  | asleep wake => exact if_neg (hahead task wake hcondition).ne'
  | _ => rfl

theorem tick_update (hcondition : condition task = .asleep now) :
    (fun other => (Function.update condition task .ready other).tick now) =
      fun other => (condition other).tick now := by
  funext other
  by_cases hother : other = task
  · subst hother
    rw [Function.update_self, hcondition]
    exact (if_pos rfl).symm
  · rw [Function.update_of_ne hother]

namespace Lists

theorem ahead (hlists : Lists setup state now condition resumed)
    (hepoch : ∀ task wake, condition task = .asleep wake →
      wake / 2 ^ 32 = now / 2 ^ 32 → now < wake) : Ahead now condition := by
  intro task wake hwake
  have hwithin := (hlists.wakeTime task wake hwake).1
  rcases hwithin.epoch with hsame | hnext
  · exact hepoch task wake hwake hsame
  · refine hwithin.1.lt_of_ne fun heq => ?_
    rw [heq] at hnext
    exact (Nat.lt_succ_self _).ne hnext

/-- The tasks that sleep until this tick have been woken, and no others. -/
structure Woken (setup : Setup ι) (state after : State ι) (now : ℕ)
    (condition : ι → Condition) (resumed : ι → Bool) : Prop where
  frame : after = { state with
    memory := after.memory
    xNextTaskUnblockTime := after.xNextTaskUnblockTime }
  lists : Lists setup after now (fun task => (condition task).tick now) resumed
  ahead : Ahead now fun task => (condition task).tick now
  unblocks : UnblocksInTime after now fun task => (condition task).tick now

/-- Nobody is left to be woken. -/
theorem woken (hlists : Lists setup state now condition resumed)
    (hahead : Ahead now condition) {next : ℕ}
    (hnext : ∀ task wake, condition task = .asleep wake →
      wake / 2 ^ 32 = now / 2 ^ 32 → next ≤ wake % 2 ^ 32) :
    Woken setup state { state with xNextTaskUnblockTime := next } now condition
      resumed := by
  constructor
  · rfl
  · rw [hahead.tick_eq]
    exact hlists.frame
  · rwa [hahead.tick_eq]
  · rw [hahead.tick_eq]
    exact hnext

theorem woken_of_empty (hlists : Lists setup state now condition resumed)
    (hempty : state.memory.numberOfItems state.pxDelayedTaskList = 0) :
    Woken setup state { state with xNextTaskUnblockTime := portMaxDelay } now
      condition resumed := by
  have hnone := (hlists.head_delayed.resolve_right
    fun hsome => hsome.1 hempty).2
  refine hlists.woken (hlists.ahead fun task wake hwake hepoch => ?_)
    fun task wake hwake hepoch => ?_
  all_goals exact absurd hepoch (hnone task wake hwake)

theorem unblockLoop (hlists : Lists setup state now condition resumed)
    (hresumed : ∀ task, resumed task = true → condition task = .suspended)
    {fuel : ℕ}
    (hfuel : state.memory.numberOfItems state.pxDelayedTaskList ≤ fuel) :
    ∃ after,
      DelayedTasks.unblockLoop setup.priority (now % 2 ^ 32) fuel state =
        some after ∧
      Woken setup state after now condition resumed := by
  induction fuel generalizing state condition with
  | zero =>
      have hempty := Nat.le_zero.mp hfuel
      rw [DelayedTasks.unblockLoop, if_pos hempty]
      exact ⟨_, rfl, hlists.woken_of_empty hempty⟩
  | succ fuel ih =>
      rw [DelayedTasks.unblockLoop]
      rcases hlists.head_delayed with
        ⟨hempty, -⟩ | ⟨hcount, task, wake, hnext, hwake, hepoch, hleast⟩
      · rw [if_pos hempty]
        exact ⟨_, rfl, hlists.woken_of_empty hempty⟩
      · rw [if_neg hcount, hnext]
        simp only [(hlists.wakeTime task wake hwake).2]
        by_cases hlater : now % 2 ^ 32 < wake % 2 ^ 32
        · rw [if_pos hlater]
          have hnow : now < wake :=
            not_le.mp (mt (mod_le_iff hepoch).mpr (not_le.mpr hlater))
          refine ⟨_, rfl, hlists.woken (hlists.ahead ?_) ?_⟩
          · intro other wake' hother hepoch'
            exact hnow.trans_le (hleast other wake' hother hepoch')
          · intro other wake' hother hepoch'
            exact (mod_le_iff (hepoch.trans hepoch'.symm)).mpr
              (hleast other wake' hother hepoch')
        · rw [if_neg hlater]
          have hle : wake ≤ now := (mod_le_iff hepoch).mp (not_lt.mp hlater)
          obtain rfl : wake = now :=
            hle.antisymm (hlists.wakeTime task wake hwake).1.1
          obtain ⟨memory, hremove, htakes, hremoved⟩ := hlists.removeState
            (hlists.stateList_eq_delayed.mpr ⟨wake, hwake, rfl⟩)
          have hawake : resumed task = false := by
            refine Bool.eq_false_iff.mpr fun htrue => ?_
            cases hwake.symm.trans (hresumed task htrue)
          have hevent := hremoved.eventList task
          rw [hawake, if_neg Bool.false_ne_true] at hevent
          have hready := hremoved.addToReady
          have hlist := hlists.delayed_ne
            (.ready (setup.priority task)) (by simp [IsDelayedList])
          have hothers : ∀ other, resumed other = true →
              Function.update condition task .ready other = .suspended := by
            intro other hother
            have hne : other ≠ task := by
              rintro rfl
              rw [hawake] at hother
              cases hother
            rw [Function.update_of_ne hne]
            exact hresumed other hother
          have hcount' : Function.update memory.numberOfItems
              (.ready (setup.priority task))
              (memory.numberOfItems (.ready (setup.priority task)) + 1)
              state.pxDelayedTaskList ≤ fuel := by
            rw [Function.update_of_ne hlist.1.symm, htakes.numberOfItems,
              Function.update_self]
            exact Nat.sub_le_of_le_add hfuel
          obtain ⟨after, hloop, hwoken⟩ := ih hready hothers hcount'
          refine ⟨after, ?_, ?_⟩
          · rw [hremove]
            simp only [State.removeEvent, hevent, if_true]
            exact hloop
          · have htick := tick_update hwake
            obtain ⟨hframe, hafter, hahead, hunblocks⟩ := hwoken
            rw [htick] at hafter hahead hunblocks
            exact ⟨hframe, hafter, hahead, hunblocks⟩

/-- A task that wakes before the tick count wraps is awake when it does. -/
theorem epoch_of_wrap (hlists : Lists setup state now condition resumed)
    (hahead : Ahead now condition) (hwrap : now % 2 ^ 32 + 1 = 2 ^ 32)
    {wake : ℕ} (hwake : condition task = .asleep wake) :
    wake / 2 ^ 32 = now / 2 ^ 32 + 1 := by
  have hwithin := (hlists.wakeTime task wake hwake).1
  refine hwithin.epoch.resolve_left fun hsame => ?_
  have hlt : wake % 2 ^ 32 < 2 ^ 32 := Nat.mod_lt wake hwithin.pos
  have hle : wake ≤ now := (mod_le_iff hsame).mp (by omega)
  exact (hahead task wake hwake).not_ge hle

theorem countTick (hlists : Lists setup state now condition resumed)
    (hahead : Ahead now condition)
    (hunblocks : UnblocksInTime state now condition) :
    Lists setup (DelayedTasks.countTick state) (now + 1) condition resumed ∧
      UnblocksInTime (DelayedTasks.countTick state) (now + 1) condition := by
  have hcount : (state.xTickCount + 1) % 2 ^ 32 = (now + 1) % 2 ^ 32 := by
    rw [hlists.tickCount, Nat.mod_add_mod]
  have hwithin : ∀ task wake, condition task = .asleep wake →
      Within (2 ^ 32) (now + 1) wake := fun task wake hwake =>
    ⟨hahead task wake hwake,
      (hlists.wakeTime task wake hwake).1.2.trans_le (by omega)⟩
  rcases succ_cases (Nat.two_pow_pos 32) now with
    ⟨hzero, hepoch, hwrap⟩ | ⟨hsucc, hepoch⟩
  · have hcounted : DelayedTasks.countTick state = taskSwitchDelayedLists
        { state with xTickCount := (now + 1) % 2 ^ 32 } := by
      rw [DelayedTasks.countTick, hcount]
      exact if_pos hzero
    have hafter : Lists setup (taskSwitchDelayedLists
        { state with xTickCount := (now + 1) % 2 ^ 32 }) (now + 1) condition
        resumed := by
      refine ⟨hlists.inOrder, hlists.pointers.symm.imp And.symm And.symm, rfl,
        ?_, ?_, hlists.eventList, ?_⟩
      · change (state.xNumOfOverflows + 1) % 2 ^ 32 = _
        rw [hlists.overflows, Nat.mod_add_mod, hepoch]
      · intro task
        change state.stateList task = _
        rw [hlists.stateList]
        cases hcondition : condition task with
        | asleep wake =>
            have hnext := hlists.epoch_of_wrap hahead hwrap hcondition
            have hlater : wake / 2 ^ 32 ≠ now / 2 ^ 32 := by omega
            rw [place, place, if_neg hlater, if_pos (hnext.trans hepoch.symm)]
            rfl
        | _ => rfl
      · intro task wake hwake
        exact ⟨hwithin task wake hwake, (hlists.wakeTime task wake hwake).2⟩
    rw [hcounted]
    exact ⟨hafter, hafter.unblocksInTime_reset⟩
  · have hnonzero : (now + 1) % 2 ^ 32 ≠ 0 := by
      rw [hsucc]
      exact Nat.succ_ne_zero _
    have hcounted : DelayedTasks.countTick state =
        { state with xTickCount := (now + 1) % 2 ^ 32 } := by
      rw [DelayedTasks.countTick, hcount]
      exact if_neg hnonzero
    rw [hcounted]
    refine ⟨⟨hlists.inOrder, hlists.pointers, rfl, ?_, ?_, hlists.eventList,
      fun task wake hwake => ⟨hwithin task wake hwake,
        (hlists.wakeTime task wake hwake).2⟩⟩, ?_⟩
    · rw [hepoch]
      exact hlists.overflows
    · intro task
      change state.stateList task = _
      rw [hlists.stateList]
      cases condition task with
      | asleep wake =>
          rw [place, place, hepoch]
      | _ => rfl
    · intro task wake hwake hsame
      exact hunblocks task wake hwake (hsame.trans hepoch)

/-- The head of the pending ready list is a resumed task. -/
theorem head_pending (hlists : Lists setup state now condition resumed) :
    state.memory.numberOfItems .pendingReady = 0 ∧ (∀ task, resumed task = false) ∨
      state.memory.numberOfItems .pendingReady ≠ 0 ∧ ∃ task,
        state.memory.links.next (.listEnd .pendingReady) =
          .item (.event task) ∧ resumed task = true := by
  rcases hlists.inOrder.head .pendingReady with
    ⟨hcount, hnone⟩ | ⟨hcount, item, hnext, hlist, -⟩
  · refine .inl ⟨hcount, fun task => Bool.eq_false_iff.mpr fun htrue => ?_⟩
    have hevent := hlists.eventList task
    rw [htrue, if_pos rfl] at hevent
    exact hnone _ hevent
  · refine .inr ⟨hcount, ?_⟩
    cases item with
    | event task =>
        have hevent := hlists.eventList task
        rw [State.eventList, hlist] at hevent
        refine ⟨task, hnext, ?_⟩
        by_contra hfalse
        rw [if_neg hfalse] at hevent
        cases hevent
    | state task =>
        have hstate := hlists.stateList task
        have hne := hlists.delayed_ne .pendingReady
          (by simp [IsDelayedList])
        rw [State.stateList, hlist] at hstate
        cases hcondition : condition task with
        | asleep wake =>
            rw [hcondition, place, Option.some.injEq] at hstate
            split at hstate
            · exact absurd hstate hne.1
            · exact absurd hstate hne.2
        | _ =>
            rw [hcondition, place] at hstate
            cases hstate

/-- The loop makes every resumed task ready. -/
theorem pendingReadyLoop (hlists : Lists setup state now condition resumed)
    (hresumed : ∀ task, resumed task = true → condition task = .suspended)
    {fuel : ℕ} (hfuel : state.memory.numberOfItems .pendingReady ≤ fuel) :
    ∃ memory, DelayedTasks.pendingReadyLoop setup.priority fuel state =
        some { state with memory := memory } ∧
      Lists setup { state with memory := memory } now
        (fun task => if resumed task then .ready else condition task)
        fun _ => false := by
  have hdone : ∀ {state : State ι} {condition : ι → Condition}
      {resumed : ι → Bool}, Lists setup state now condition resumed →
      (∀ task, resumed task = false) →
      Lists setup state now
        (fun task => if resumed task then .ready else condition task)
        fun _ => false := by
    intro state condition resumed hlists hnone
    obtain rfl : resumed = fun _ => false := funext hnone
    exact hlists
  induction fuel generalizing state condition resumed with
  | zero =>
      have hempty := Nat.le_zero.mp hfuel
      rw [DelayedTasks.pendingReadyLoop, if_pos hempty]
      exact ⟨state.memory, rfl, hdone hlists (hlists.head_pending.resolve_right
        fun hsome => hsome.1 hempty).2⟩
  | succ fuel ih =>
      rw [DelayedTasks.pendingReadyLoop]
      rcases hlists.head_pending with ⟨hempty, hnone⟩ | ⟨hcount, task, hnext, htask⟩
      · rw [if_pos hempty]
        exact ⟨state.memory, rfl, hdone hlists hnone⟩
      · rw [if_neg hcount, hnext]
        obtain ⟨memory, hevent, htakes, hafter⟩ := hlists.removePending htask
        have hlist := hafter.stateList task
        rw [hresumed task htask] at hlist
        obtain ⟨memory', hremove, htakes', hremoved⟩ := hafter.removeState hlist
        have hothers : ∀ other, Function.update resumed task false other = true →
            Function.update condition task .ready other = .suspended := by
          intro other hother
          have hne : other ≠ task := by
            rintro rfl
            rw [Function.update_self] at hother
            cases hother
          rw [Function.update_of_ne hne] at hother ⊢
          exact hresumed other hother
        have hcount' : Function.update memory'.numberOfItems
            (.ready (setup.priority task))
            (memory'.numberOfItems (.ready (setup.priority task)) + 1)
            .pendingReady ≤ fuel := by
          rw [Function.update_of_ne (by simp), htakes'.numberOfItems,
            Function.update_of_ne (by simp)]
          change memory.numberOfItems _ ≤ fuel
          rw [htakes.numberOfItems, Function.update_self]
          exact Nat.sub_le_of_le_add hfuel
        obtain ⟨memory'', hloop, hlast⟩ := ih hremoved.addToReady hothers hcount'
        refine ⟨memory'', ?_, ?_⟩
        · dsimp only
          rw [hevent]
          dsimp only
          rw [hremove]
          exact hloop
        · have hsame : (fun other =>
              if Function.update resumed task false other then .ready
              else Function.update condition task .ready other) =
              fun other => if resumed other then .ready
                else condition other := by
            funext other
            by_cases heq : other = task
            · subst heq
              rw [Function.update_self, Function.update_self, htask]
              rfl
            · rw [Function.update_of_ne heq, Function.update_of_ne heq]
          rwa [hsame] at hlast

end Lists

end PicoSched.DelayedTasks
