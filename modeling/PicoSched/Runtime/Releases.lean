import PicoSched.Runtime.Clock

/-!
# The periods of a thread

`vTaskDelayUntil` lets a thread begin its next call of `run_task` only when the
next period has begun, and `Periodic_Job` lets it end a call only before that.
So call `n` works for period `n`: no period is left out and none is served
twice.
-/

namespace PicoSched.RunTask

open TaskManager Transition

variable {tasks : TaskSet} {task : TaskInfo} {now now' request : ℕ}
  {thread thread' : Thread} {effect : Effect} {state : State}

/-! ## Release times -/

/-- A thread is not in a call of `run_task` before the time of its request, and
it does not sleep for less. -/
def Point.Due (now request : ℕ) : Point → Prop
  | .delayed wake => request ≤ wake
  | _ => request ≤ now

theorem Point.Due.mono {point : Point} (hdue : point.Due now request)
    (hnow : now ≤ now') : point.Due now' request := by
  cases point with
  | delayed wake => exact hdue
  | _ => exact le_trans hdue hnow

theorem Walk.due {deadline : ℕ} {point point' : Point}
    (hwalk : Walk task now deadline point point' effect)
    (hdue : point.Due now request) : point'.Due now request := by
  cases hwalk with
  | syncDelay => exact le_trans hdue (Nat.le_add_right now _)
  | wake hwake => exact le_trans hdue hwake
  | _ => exact hdue

/-- The tick at which `vTaskDelayUntil` lets the thread go on. -/
theorem due_vTaskDelayUntil (hnow : now < 2 ^ 32)
    (hlast : thread.lastRequestTime ≤ now)
    (hnext : thread.lastRequestTime + task.period < 2 ^ 32) :
    (vTaskDelayUntil task now thread).point.Due now
      (thread.lastRequestTime + task.period) := by
  have hcount : tickCount now = now := Nat.mod_eq_of_lt hnow
  have hwake : (thread.lastRequestTime + task.period) % 2 ^ 32 =
      thread.lastRequestTime + task.period := Nat.mod_eq_of_lt hnext
  have hpast : ¬thread.lastRequestTime + task.period <
      thread.lastRequestTime := not_lt.mpr (Nat.le_add_right _ _)
  have hresult : xTaskDelayUntil (tickCount now) thread.lastRequestTime
      task.period = (thread.lastRequestTime + task.period,
        decide (now < thread.lastRequestTime + task.period)) := by
    rw [xTaskDelayUntil, hcount, if_neg (not_lt.mpr hlast), hwake]
    simp only [hpast, false_or]
  rw [vTaskDelayUntil, hresult, hcount]
  by_cases hsleep : now < thread.lastRequestTime + task.period
  · rw [decide_eq_true hsleep]
    change thread.lastRequestTime + task.period ≤
      now + (thread.lastRequestTime + task.period + 2 ^ 32 - now) % 2 ^ 32
    omega
  · rw [decide_eq_false hsleep]
    exact not_lt.mp hsleep

/-- A thread keeps to its request times, as long as these and the tick counter
have not wrapped. -/
structure Released (task : TaskInfo) (now : ℕ) (thread : Thread) : Prop where
  due : now < 2 ^ 32 → ∀ start, thread.history.start = some start →
    start + thread.calls * task.period < 2 ^ 32 →
      thread.point.Due now (start + thread.calls * task.period)
  entered : now < 2 ^ 32 → ∀ start, thread.history.start = some start →
    ∀ n first : ℕ, thread.history.entered[n]? = some first →
      start + n * task.period < 2 ^ 32 → start + n * task.period ≤ first

theorem Released.created (task : TaskInfo) : Released task 0 .created where
  due _ _ hstart := by cases hstart
  entered _ _ hstart := by cases hstart

/-- A step that does not touch the lists. -/
theorem Released.frame (hreleased : Released task now thread)
    (hstart : thread'.history.start = thread.history.start)
    (hentered : thread'.history.entered = thread.history.entered)
    (hcalls : thread'.calls = thread.calls)
    (hdue : ∀ request, thread.point.Due now request →
      thread'.point.Due now request) : Released task now thread' := by
  constructor
  · intro hnow start hsome hwrap
    rw [hcalls] at hwrap ⊢
    exact hdue _ (hreleased.due hnow start (hstart ▸ hsome) hwrap)
  · intro hnow start hsome n first hfirst
    rw [hentered] at hfirst
    exact hreleased.entered hnow start (hstart ▸ hsome) n first hfirst

/-- Inside a job the thread has passed the time of its request. -/
theorem Released.request_le (hreleased : Released task now thread)
    (hawake : ∀ wake, thread.point ≠ .delayed wake) (hnow : now < 2 ^ 32)
    {start : ℕ} (hstart : thread.history.start = some start)
    (hwrap : start + thread.calls * task.period < 2 ^ 32) :
    start + thread.calls * task.period ≤ now := by
  have hdue := hreleased.due hnow start hstart hwrap
  cases hpoint : thread.point with
  | delayed wake => exact absurd hpoint (hawake wake)
  | _ =>
      rw [hpoint] at hdue
      exact hdue

theorem OnClock.calls_vTaskDelayUntil (hclock : OnClock task now thread)
    (hpoint : thread.point = .delayUntil) :
    (vTaskDelayUntil task now thread).calls = thread.calls + 1 := by
  have hpositive := hclock.served (hpoint ▸ rfl)
  have hnext : (vTaskDelayUntil task now thread).point.served = false := by
    rcases point_vTaskDelayUntil with ⟨wake, hwake⟩ | hcall
    · exact hwake ▸ rfl
    · exact hcall ▸ rfl
  rw [calls_of_not_served hnext, history_vTaskDelayUntil, Thread.calls, hpoint]
  exact (Nat.sub_add_cancel hpositive).symm

theorem Released.next (hclock : OnClock task now thread)
    (hcounting : Counting task now thread)
    (hreleased : Released task now thread)
    (hmoves : Moves task now thread now' thread') :
    Released task now' thread' := by
  have hquiet : ∀ {point : Point}, thread.point.served = false →
      point.served = false →
        Thread.calls { thread with point } = thread.calls := by
    intro point hbefore hafter
    rw [calls_of_not_served hbefore, Thread.calls, hafter]
    rfl
  cases hmoves with
  | stay => exact hreleased
  | tick =>
      constructor
      · intro hnow start hsome hwrap
        exact (hreleased.due (Nat.lt_of_succ_lt hnow) start hsome hwrap).mono
          (Nat.le_succ now)
      · intro hnow
        exact hreleased.entered (Nat.lt_of_succ_lt hnow)
  | resumed hpoint =>
      refine hreleased.frame rfl rfl (hquiet (hpoint ▸ rfl) rfl) ?_
      intro request hdue
      rwa [hpoint] at hdue
  | run hrun =>
      cases hrun with
      | start hpoint =>
          have hidle := hclock.idle (hclock.entry.mpr hpoint)
          have hlength := hcounting.length_of_outside (hpoint ▸ rfl)
          constructor
          · intro _ start hsome _
            obtain rfl := Option.some.inj hsome
            have hcalls : Thread.calls { thread with
                point := .syncDelay
                lastRequestTime := tickCount now
                history := { thread.history with start := some now } } = 0 :=
              congrArg List.length hidle
            rw [hcalls, zero_mul, add_zero]
            exact le_refl now
          · intro _ _ _ n first hfirst
            have hnone : thread.history.entered[n]? = none := by
              rw [List.getElem?_eq_none]
              rw [hlength, hidle]
              exact Nat.zero_le n
            cases hnone.symm.trans hfirst
      | call hpoint =>
          refine hreleased.frame rfl rfl ?_ ?_
          · refine hquiet (hpoint ▸ rfl) ?_
            split <;> rfl
          · intro request hdue
            rw [hpoint] at hdue
            change Point.Due now request
              (if task.dependency then .suspend else .job)
            split <;> exact hdue
      | @enter point hpoint hchecked =>
          have hlength := hcounting.length_of_outside (hpoint ▸ rfl)
          have hcalls : thread.calls = thread.history.finished.length :=
            calls_of_not_served (hpoint ▸ rfl)
          constructor
          · intro hnow start hsome hwrap
            have hserved : point.served = false := by
              rcases hchecked with rfl | rfl <;> rfl
            have hsame := hquiet (hpoint ▸ rfl) hserved
            change start + Thread.calls { thread with point } * _ < _ at hwrap
            change Point.Due now (start + Thread.calls { thread with point } *
              task.period) point
            rw [hsame] at hwrap ⊢
            have hdue := hreleased.due hnow start hsome hwrap
            rw [hpoint] at hdue
            rcases hchecked with rfl | rfl <;> exact hdue
          · intro hnow start hsome n first hfirst hwrap
            rcases getElem?_concat hfirst with hold | ⟨rfl, rfl⟩
            · exact hreleased.entered hnow start hsome n first hold hwrap
            · rw [hlength, ← hcalls] at hwrap ⊢
              exact hreleased.request_le (by simp [hpoint]) hnow hsome hwrap
      | finish hpoint _ =>
          have hcalls : thread.calls = thread.history.finished.length :=
            calls_of_not_served (hpoint ▸ rfl)
          refine hreleased.frame rfl rfl ?_ ?_
          · rw [hcalls]
            simp [Thread.calls, Point.served]
          · intro request hdue
            rwa [hpoint] at hdue
      | alone hpoint _ =>
          refine hreleased.frame rfl rfl ?_ ?_
          · simp [Thread.calls, Point.served, hpoint]
          · intro request hdue
            rwa [hpoint] at hdue
      | resume hpoint _ =>
          refine hreleased.frame rfl rfl ?_ ?_
          · simp [Thread.calls, Point.served, hpoint]
          · intro request hdue
            rwa [hpoint] at hdue
      | delayUntil hpoint =>
          constructor
          · intro hnow start hsome hwrap
            have hnext : start + (thread.calls + 1) * task.period =
                start + thread.calls * task.period + task.period := by
              rw [Nat.succ_mul, add_assoc]
            rw [hclock.calls_vTaskDelayUntil hpoint, hnext] at hwrap ⊢
            have hbefore := hreleased.request_le (by simp [hpoint]) hnow hsome
              (Nat.lt_of_add_right_lt hwrap)
            have hrequest : thread.lastRequestTime =
                start + thread.calls * task.period := by
              rw [hclock.request start hsome]
              exact Nat.mod_eq_of_lt (Nat.lt_of_add_right_lt hwrap)
            rw [← hrequest] at hbefore hwrap ⊢
            exact due_vTaskDelayUntil hnow hbefore hwrap
          · exact hreleased.entered
      | walk hwalk =>
          obtain ⟨_, _, hserved, hserved', _⟩ := hwalk.keeps
          exact hreleased.frame rfl rfl (hquiet hserved hserved')
            fun request hdue => hwalk.due hdue

theorem released (hreach : (machine tasks).Reachable state)
    (handle : TaskHandle) :
    Released (tasks.info handle) state.now (state.thread handle) := by
  have hall := thread_invariant
    (fun now thread => (OnClock (tasks.info handle) now thread ∧
      Counting (tasks.info handle) now thread) ∧
        Released (tasks.info handle) now thread) handle
    ⟨⟨.created _, .created _⟩, .created _⟩
    (fun _ _ _ _ hmoves hall => ⟨⟨hall.1.1.next hmoves, hall.1.2.next hmoves⟩,
      hall.2.next hall.1.1 hall.1.2 hmoves⟩) hreach
  exact hall.2

/-! ## The calls of `run_task` -/

/-- From the first line of `run_task` to its last. -/
def Point.inRunTask : Point → Bool
  | .entry | .syncDelay | .delayed _ => false
  | _ => true

/-- Call `n` of `run_task`, counted from 0, is made with the request of period
`n` and not before it; the job it does lies in that period, and the next call
is made with the next request.  Jobs do not overlap. -/
structure OnSchedule (task : TaskInfo) (now : ℕ) (thread : Thread)
    (start n : ℕ) : Prop where
  request : thread.point.inRunTask = true → thread.calls = n →
    thread.lastRequestTime = start + n * task.period ∧
      start + n * task.period ≤ now
  job : n < thread.history.finished.length → ∃ first last,
    thread.history.entered[n]? = some first ∧
      thread.history.finished[n]? = some last ∧
      start + n * task.period ≤ first ∧ first + task.runtime ≤ last ∧
      last ≤ start + (n + 1) * task.period
  next : thread.point.inRunTask = true → thread.calls = n + 1 →
    thread.lastRequestTime = start + (n + 1) * task.period ∧
      start + (n + 1) * task.period ≤ now
  disjoint : ∀ last first, thread.history.finished[n]? = some last →
    thread.history.entered[n + 1]? = some first → last ≤ first
  single : thread.history.entered.length ≤ thread.history.finished.length + 1

/-- A call that is going on has the request of its period. -/
theorem request_of_calls (hclock : OnClock task now thread)
    (hreleased : Released task now thread)
    (hinside : thread.point.inRunTask = true) (hnow : now < 2 ^ 32)
    {start n : ℕ} (hstart : thread.history.start = some start)
    (hcalls : thread.calls = n) (hwrap : start + n * task.period < 2 ^ 32) :
    thread.lastRequestTime = start + n * task.period ∧
      start + n * task.period ≤ now := by
  have hawake : ∀ wake, thread.point ≠ .delayed wake := by
    intro wake hpoint
    rw [hpoint] at hinside
    cases hinside
  constructor
  · rw [hclock.request start hstart, hcalls, Nat.mod_eq_of_lt hwrap]
  · rw [← hcalls] at hwrap ⊢
    exact hreleased.request_le hawake hnow hstart hwrap

/-- In every run each call of `run_task` serves its own period, as long as the
tick counter and the end of that period are below `2 ^ 32`. -/
theorem onSchedule (hreach : (machine tasks).Reachable state)
    (handle : TaskHandle) {start n : ℕ}
    (hstart : (state.thread handle).history.start = some start)
    (hnow : state.now < 2 ^ 32)
    (hwrap : start + (n + 1) * (tasks.info handle).period < 2 ^ 32) :
    OnSchedule (tasks.info handle) state.now (state.thread handle) start n := by
  have hclock := onClock hreach handle
  have hcounting := counting hreach handle
  have hreleased := released hreach handle
  have htime := onTime hreach handle hnow start hstart n
  have hperiod : start + n * (tasks.info handle).period ≤
      start + (n + 1) * (tasks.info handle).period := by
    gcongr
    exact Nat.le_succ n
  constructor
  · intro hinside hcalls
    exact request_of_calls hclock hreleased hinside hnow hstart hcalls
      (hperiod.trans_lt hwrap)
  · intro hfinished
    obtain ⟨first, last, hfirst, hlast, hexecuted, hend⟩ :=
      met_of_finished hreach handle hnow hstart hfinished
    exact ⟨first, last, hfirst, hlast, hreleased.entered hnow start hstart n _
      hfirst (hperiod.trans_lt hwrap), hexecuted, hend⟩
  · intro hinside hcalls
    exact request_of_calls hclock hreleased hinside hnow hstart hcalls hwrap
  · intro last first hlast hfirst
    calc
      last ≤ start + (n + 1) * (tasks.info handle).period := htime last hlast
      _ ≤ first := hreleased.entered hnow start hstart (n + 1) first hfirst hwrap
  · rw [hcounting.entered]
    split <;> omega

/-- The body does its first job and is called again when its next period
begins. -/
def secondCall : List Action :=
  [.run 0, .run 0, .tick, .run 0, .run 0, .run 0, .run 0, .tick, .run 0,
    .run 0, .run 0, .run 0, .run 0, .tick, .run 0, .run 0, .run 0]

theorem splitPair_onSchedule : ∃ state : State,
    (state.thread 0).history.entered = [1, 3] ∧
      (state.thread 0).history.finished = [2] ∧ (state.thread 0).calls = 1 ∧
      OnSchedule ((splitPair 1 1 3).info 0) state.now (state.thread 0) 0 0 := by
  have hexec : ((machine (splitPair 1 1 3)).exec (fun _ _ => True) secondCall
      (machine (splitPair 1 1 3)).start).any (fun state =>
        decide (state.now < 2 ^ 32 ∧
          (state.thread 0).history.start = some 0 ∧
          (state.thread 0).history.entered = [1, 3] ∧
          (state.thread 0).history.finished = [2] ∧
          (state.thread 0).calls = 1)) = true := by decide
  obtain ⟨state, hreach, hfinal⟩ := Machine.exists_reaches_of_exec _ _ hexec
  obtain ⟨hnow, hstart, hentered, hfinished, hcalls⟩ := of_decide_eq_true hfinal
  refine ⟨state, hentered, hfinished, hcalls,
    onSchedule hreach 0 hstart hnow ?_⟩
  decide

end PicoSched.RunTask
