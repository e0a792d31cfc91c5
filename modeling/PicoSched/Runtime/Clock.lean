import PicoSched.Runtime.Threads

/-!
# The clock of a thread

`LastRequestTime` of a thread advances by one period with every call of
`run_task`, counted from the tick the thread started at, and a job that passes
the checks of `Periodic_Job` ends by the deadline taken from it.
-/

namespace PicoSched.RunTask

open TaskManager

variable {tasks : TaskSet} {task : TaskInfo} {now now' : ℕ}
  {thread thread' : Thread} {effect : Effect} {state : State}

/-- The calls of `run_task` that have returned. -/
def Thread.calls (thread : Thread) : ℕ :=
  if thread.point.served then thread.history.finished.length - 1
  else thread.history.finished.length

/-! ## Requests and deadlines -/

/-- The values of a thread agree with its start tick. -/
structure OnClock (task : TaskInfo) (now : ℕ) (thread : Thread) : Prop where
  entry : thread.history.start = none ↔ thread.point = .entry
  idle : thread.history.start = none → thread.history.finished = []
  start_le : ∀ start, thread.history.start = some start → start ≤ now
  request : ∀ start, thread.history.start = some start →
    thread.lastRequestTime = (start + thread.calls * task.period) % 2 ^ 32
  served : thread.point.served = true → 0 < thread.history.finished.length
  deadline : thread.point.inCall = true →
    thread.deadline = (thread.lastRequestTime + task.period) % 2 ^ 32

theorem OnClock.created (task : TaskInfo) : OnClock task 0 .created where
  entry := ⟨fun _ => rfl, fun _ => rfl⟩
  idle _ := rfl
  start_le := nofun
  request := nofun
  served := nofun
  deadline := nofun

/-- A step that keeps the thread's values keeps its clock. -/
theorem OnClock.frame (hclock : OnClock task now thread) (hnow : now ≤ now')
    (hstart : thread'.history.start = thread.history.start)
    (hfinished : thread'.history.finished = thread.history.finished)
    (hlast : thread'.lastRequestTime = thread.lastRequestTime)
    (hdeadline : thread'.deadline = thread.deadline)
    (hentry : thread'.point = .entry ↔ thread.point = .entry)
    (hserved : thread'.point.served = thread.point.served)
    (hcall : thread'.point.inCall = true → thread.point.inCall = true) :
    OnClock task now' thread' := by
  have hcalls : thread'.calls = thread.calls := by
    rw [Thread.calls, Thread.calls, hserved, hfinished]
  constructor
  · rw [hstart, hentry]
    exact hclock.entry
  · rw [hstart, hfinished]
    exact hclock.idle
  · intro start hsome
    exact (hclock.start_le start (hstart ▸ hsome)).trans hnow
  · intro start hsome
    rw [hlast, hcalls]
    exact hclock.request start (hstart ▸ hsome)
  · rw [hserved, hfinished]
    exact hclock.served
  · intro hinside
    rw [hlast, hdeadline]
    exact hclock.deadline (hcall hinside)

theorem Walk.keeps {deadline : ℕ} {point point' : Point}
    (hwalk : Walk task now deadline point point' effect) :
    point ≠ .entry ∧ point' ≠ .entry ∧ point.served = false ∧
      point'.served = false ∧ (point'.inCall = true → point.inCall = true) := by
  cases hwalk <;>
    simp [Point.served, Point.inCall]

theorem calls_of_not_served (hserved : thread.point.served = false) :
    thread.calls = thread.history.finished.length := by
  rw [Thread.calls, hserved]
  rfl

/-- The wake time that `vTaskDelayUntil` stores is the next request. -/
theorem next_request (start calls period : ℕ) :
    ((start + calls * period) % 2 ^ 32 + period) % 2 ^ 32 =
      (start + (calls + 1) * period) % 2 ^ 32 := by
  rw [Nat.mod_add_mod]
  congr 1
  ring

theorem OnClock.next (hclock : OnClock task now thread)
    (hmoves : Moves task now thread now' thread') :
    OnClock task now' thread' := by
  cases hmoves with
  | stay => exact hclock
  | tick =>
      exact hclock.frame (Nat.le_succ now) rfl rfl rfl rfl Iff.rfl rfl id
  | resumed hpoint =>
      refine hclock.frame le_rfl rfl rfl rfl rfl ?_ ?_ ?_ <;> simp [hpoint, Point.served,
        Point.inCall]
  | run hrun =>
      cases hrun with
      | start hpoint =>
          have hnone := hclock.entry.mpr hpoint
          have hidle := hclock.idle hnone
          constructor
          · exact ⟨nofun, nofun⟩
          · exact nofun
          · intro start hsome
            exact (Option.some.inj hsome).ge
          · intro start hsome
            have hcalls : Thread.calls { thread with
                point := .syncDelay
                lastRequestTime := tickCount now
                history := { thread.history with start := some now } } = 0 :=
              congrArg List.length hidle
            obtain rfl := Option.some.inj hsome
            rw [hcalls, zero_mul, add_zero]
            rfl
          · exact nofun
          · exact nofun
      | call hpoint =>
          have hnext : ∀ point, (point = if task.dependency then Point.suspend
              else .job) → point ≠ .entry ∧ point.served = false := by
            rintro point rfl
            split <;> exact ⟨nofun, rfl⟩
          obtain ⟨hentry, hserved⟩ := hnext _ rfl
          have hcalls : thread.calls = thread.history.finished.length :=
            calls_of_not_served (hpoint ▸ rfl)
          constructor
          · refine ⟨fun hnone => ?_, fun heq => absurd heq hentry⟩
            exact absurd (hclock.entry.mp hnone) (hpoint ▸ nofun)
          · exact hclock.idle
          · exact hclock.start_le
          · intro start hsome
            rw [calls_of_not_served hserved]
            exact hcalls ▸ hclock.request start hsome
          · intro hboth
            exact absurd (hserved.symm.trans hboth) nofun
          · exact fun _ => rfl
      | enter hpoint hchecked =>
          refine hclock.frame le_rfl rfl rfl rfl rfl ?_ ?_ ?_ <;>
            rcases hchecked with rfl | rfl <;>
              simp [hpoint, Point.served, Point.inCall]
      | finish hpoint _ =>
          have hcalls : thread.calls = thread.history.finished.length :=
            calls_of_not_served (hpoint ▸ rfl)
          constructor
          · refine ⟨fun hnone => ?_, nofun⟩
            exact absurd (hclock.entry.mp hnone) (hpoint ▸ nofun)
          · intro hnone
            exact absurd (hclock.entry.mp hnone) (hpoint ▸ nofun)
          · exact hclock.start_le
          · intro start hsome
            have hrequest := hclock.request start hsome
            rw [hcalls] at hrequest
            simpa [Thread.calls, Point.served] using hrequest
          · simp
          · exact nofun
      | alone hpoint _ =>
          refine hclock.frame le_rfl rfl rfl rfl rfl ?_ ?_ ?_ <;> simp [hpoint,
            Point.served, Point.inCall]
      | resume hpoint _ =>
          refine hclock.frame le_rfl rfl rfl rfl rfl ?_ ?_ ?_ <;> simp [hpoint,
            Point.served, Point.inCall]
      | delayUntil hpoint =>
          have hnext : (vTaskDelayUntil task now thread).point ≠ .entry ∧
              (vTaskDelayUntil task now thread).point.served = false ∧
              (vTaskDelayUntil task now thread).point.inCall = false := by
            rcases point_vTaskDelayUntil with ⟨wake, hwake⟩ | hcall
            · rw [hwake]
              exact ⟨nofun, rfl, rfl⟩
            · rw [hcall]
              exact ⟨nofun, rfl, rfl⟩
          obtain ⟨hentry, hserved, hinside⟩ := hnext
          have hpositive := hclock.served (hpoint ▸ rfl)
          have hcalls : thread.calls + 1 = thread.history.finished.length := by
            rw [Thread.calls, hpoint]
            exact Nat.sub_add_cancel hpositive
          constructor
          · refine ⟨fun hnone => ?_, fun heq => absurd heq hentry⟩
            exact absurd (hclock.entry.mp hnone) (hpoint ▸ nofun)
          · exact hclock.idle
          · exact hclock.start_le
          · intro start hsome
            rw [calls_of_not_served hserved, lastRequestTime_vTaskDelayUntil,
              hclock.request start hsome, history_vTaskDelayUntil, ← hcalls]
            exact next_request start thread.calls task.period
          · intro hboth
            exact absurd (hserved.symm.trans hboth) nofun
          · intro hboth
            exact absurd (hinside.symm.trans hboth) nofun
      | walk hwalk =>
          obtain ⟨hbefore, hafter, hserved, hserved', hcall⟩ := hwalk.keeps
          refine hclock.frame le_rfl rfl rfl rfl rfl ?_ ?_ hcall
          · exact ⟨fun heq => absurd heq hafter, fun heq => absurd heq hbefore⟩
          · exact hserved'.trans hserved.symm

theorem onClock (hreach : (machine tasks).Reachable state)
    (handle : TaskHandle) :
    OnClock (tasks.info handle) state.now (state.thread handle) :=
  thread_invariant (OnClock (tasks.info handle)) handle (.created _)
    (fun _ _ _ _ hmoves hclock => hclock.next hmoves) hreach

/-- The deadline a job is checked against is at most the end of its period,
also when it is cut to 16 bits. -/
theorem OnClock.deadline_le (hclock : OnClock task now thread)
    (hcall : thread.point.inCall = true) {start : ℕ}
    (hstart : thread.history.start = some start) :
    thread.deadline % 2 ^ 16 ≤
      start + (thread.history.finished.length + 1) * task.period := by
  have hserved : thread.point.served = false := by
    cases hpoint : thread.point <;> rw [hpoint] at hcall <;>
      first | rfl | cases hcall
  calc
    thread.deadline % 2 ^ 16 ≤ thread.deadline := Nat.mod_le _ _
    _ = (thread.lastRequestTime + task.period) % 2 ^ 32 := hclock.deadline hcall
    _ = (start + (thread.calls + 1) * task.period) % 2 ^ 32 := by
      rw [hclock.request start hstart, next_request]
    _ ≤ start + (thread.calls + 1) * task.period := Nat.mod_le _ _
    _ = start + (thread.history.finished.length + 1) * task.period := by
      rw [calls_of_not_served hserved]

/-! ## Finished jobs -/

theorem getElem?_concat {α : Type*} {values : List α} {last value : α} {n : ℕ}
    (hvalue : (values ++ [last])[n]? = some value) :
    values[n]? = some value ∨ n = values.length ∧ value = last := by
  rcases lt_trichotomy n values.length with hless | rfl | hgreater
  · rw [List.getElem?_append_left hless] at hvalue
    exact .inl hvalue
  · rw [List.getElem?_concat_length] at hvalue
    exact .inr ⟨rfl, (Option.some.inj hvalue).symm⟩
  · rw [List.getElem?_eq_none] at hvalue
    · cases hvalue
    · rw [List.length_append, List.length_singleton]
      omega

/-- Every finished job ended by the end of its period. -/
def OnTime (task : TaskInfo) (now : ℕ) (thread : Thread) : Prop :=
  now < 2 ^ 32 → ∀ start, thread.history.start = some start → ∀ n tick,
    thread.history.finished[n]? = some tick →
      tick ≤ start + (n + 1) * task.period

theorem OnTime.next (hclock : OnClock task now thread)
    (htime : OnTime task now thread)
    (hmoves : Moves task now thread now' thread') :
    OnTime task now' thread' := by
  cases hmoves with
  | stay => exact htime
  | tick => exact fun hwrap => htime (Nat.lt_of_succ_lt hwrap)
  | resumed hpoint => exact htime
  | run hrun =>
      cases hrun with
      | start hpoint =>
          intro _ start _ n tick hfinished
          have hnone := hclock.idle (hclock.entry.mpr hpoint)
          change thread.history.finished[n]? = some tick at hfinished
          rw [hnone, List.getElem?_nil] at hfinished
          cases hfinished
      | finish hpoint hcheck =>
          intro hwrap start hstart n tick hfinished
          rcases getElem?_concat hfinished with hbefore | ⟨rfl, rfl⟩
          · exact htime hwrap start hstart n tick hbefore
          · have hnow : tickCount tick = tick := Nat.mod_eq_of_lt hwrap
            rw [hnow] at hcheck
            exact hcheck.trans (hclock.deadline_le (hpoint ▸ rfl) hstart)
      | call _ => exact htime
      | enter _ _ => exact htime
      | alone _ _ => exact htime
      | resume _ _ => exact htime
      | delayUntil _ => exact htime
      | walk _ => exact htime

theorem onTime (hreach : (machine tasks).Reachable state)
    (handle : TaskHandle) :
    OnTime (tasks.info handle) state.now (state.thread handle) := by
  have hboth := thread_invariant
    (fun now thread => OnClock (tasks.info handle) now thread ∧
      OnTime (tasks.info handle) now thread) handle ⟨.created _, nofun⟩
    (fun _ _ _ _ hmoves hboth =>
      ⟨hboth.1.next hmoves, hboth.2.next hboth.1 hmoves⟩) hreach
  exact hboth.2

/-! ## Executed ticks -/

/-- What a job entered at `entered` has counted when its thread is here. -/
def Point.Elapsed (runtime now entered : ℕ) : Point → Prop
  | .loop i => entered + i ≤ now
  | .spin i counter => entered + i + 1 ≤ counter
  | .recheck => entered + runtime ≤ now
  | _ => True

/-- The busy loops of a thread have counted what they should. -/
structure Counting (task : TaskInfo) (now : ℕ) (thread : Thread) : Prop where
  entered : thread.history.entered.length =
    thread.history.finished.length + if thread.point.inJob then 1 else 0
  elapsed : now < 2 ^ 16 → ∀ tick,
    thread.history.entered[thread.history.finished.length]? = some tick →
      thread.point.Elapsed task.runtime now tick
  executed : now < 2 ^ 32 → ∀ n first last : ℕ,
    thread.history.entered[n]? = some first →
      thread.history.finished[n]? = some last → first + task.runtime ≤ last

theorem Counting.created (task : TaskInfo) : Counting task 0 .created where
  entered := rfl
  elapsed _ _ _ := trivial
  executed := nofun

theorem Counting.length_of_outside (hcounting : Counting task now thread)
    (hpoint : thread.point.inJob = false) :
    thread.history.entered.length = thread.history.finished.length := by
  have hlength := hcounting.entered
  rw [hpoint] at hlength
  exact hlength

/-- A step outside the jobs. -/
theorem Counting.outside (hcounting : Counting task now thread)
    (hentered : thread'.history.entered = thread.history.entered)
    (hfinished : thread'.history.finished = thread.history.finished)
    (hbefore : thread.point.inJob = false)
    (hafter : thread'.point.inJob = false) : Counting task now thread' := by
  have hlength := hcounting.length_of_outside hbefore
  constructor
  · rw [hentered, hfinished, hafter]
    exact hlength
  · intro _ tick htick
    rw [hentered, hfinished, List.getElem?_eq_none hlength.le] at htick
    cases htick
  · rw [hentered, hfinished]
    exact hcounting.executed

theorem Walk.elapsed {deadline : ℕ} {point point' : Point} {tick : ℕ}
    (hwalk : Walk task now deadline point point' effect) (hnow : now < 2 ^ 16)
    (helapsed : point.Elapsed task.runtime now tick) :
    point'.Elapsed task.runtime now tick := by
  have hcount : tickCount now = now := Nat.mod_eq_of_lt (by omega)
  cases hwalk with
  | spin hless =>
      have hnext : (tickCount now + 1) % 2 ^ 32 = now + 1 := by
        rw [hcount]
        exact Nat.mod_eq_of_lt (by omega)
      change tick + _ + 1 ≤ (tickCount now + 1) % 2 ^ 32
      rw [hnext]
      exact Nat.succ_le_succ helapsed
  | leave hend => exact (Nat.add_le_add_left hend tick).trans helapsed
  | count hcounter =>
      rw [hcount] at hcounter
      exact le_trans helapsed hcounter
  | syncDelay => trivial
  | wake _ => trivial
  | suspend => trivial
  | late _ => trivial
  | overflow => trivial

theorem Walk.inJob_eq {deadline : ℕ} {point point' : Point}
    (hwalk : Walk task now deadline point point' effect) :
    point'.inJob = point.inJob := by
  cases hwalk <;> rfl

theorem Counting.next (hcounting : Counting task now thread)
    (hmoves : Moves task now thread now' thread') :
    Counting task now' thread' := by
  cases hmoves with
  | stay => exact hcounting
  | tick =>
      refine ⟨hcounting.entered, fun hnow tick htick => ?_,
        fun hwrap => hcounting.executed (Nat.lt_of_succ_lt hwrap)⟩
      have helapsed := hcounting.elapsed (Nat.lt_of_succ_lt hnow) tick htick
      cases hpoint : thread.point <;> rw [hpoint] at helapsed <;>
        first
          | exact helapsed
          | exact Nat.le_succ_of_le helapsed
  | resumed hpoint => exact hcounting.outside rfl rfl (hpoint ▸ rfl) rfl
  | run hrun =>
      cases hrun with
      | start hpoint => exact hcounting.outside rfl rfl (hpoint ▸ rfl) rfl
      | call hpoint =>
          refine hcounting.outside rfl rfl (hpoint ▸ rfl) ?_
          change (if task.dependency then Point.suspend else .job).inJob = false
          split <;> rfl
      | enter hpoint hchecked =>
          have hlength := hcounting.length_of_outside (hpoint ▸ rfl)
          constructor
          · rw [List.length_append, hlength]
            rcases hchecked with rfl | rfl <;> rfl
          · intro _ tick htick
            change (thread.history.entered ++ [now])[
              thread.history.finished.length]? = some tick at htick
            rw [← hlength, List.getElem?_concat_length] at htick
            obtain rfl := Option.some.inj htick
            rcases hchecked with rfl | rfl
            · trivial
            · exact le_rfl
          · intro hwrap n first last hfirst hlast
            rcases getElem?_concat hfirst with hbefore | ⟨rfl, rfl⟩
            · exact hcounting.executed hwrap n first last hbefore hlast
            · rw [List.getElem?_eq_none hlength.ge] at hlast
              cases hlast
      | finish hpoint hcheck =>
          have hlength := hcounting.entered
          rw [hpoint] at hlength
          constructor
          · rw [List.length_append, hlength]
            rfl
          · intro _ _ _
            trivial
          · intro hwrap n first last hfirst hlast
            rcases getElem?_concat hlast with hbefore | ⟨rfl, rfl⟩
            · exact hcounting.executed hwrap n first last hfirst hbefore
            · have hnow : last < 2 ^ 16 := by
                have hcount : tickCount last = last := Nat.mod_eq_of_lt hwrap
                rw [hcount] at hcheck
                exact hcheck.trans_lt (Nat.mod_lt _ (by norm_num))
              have helapsed := hcounting.elapsed hnow first hfirst
              rw [hpoint] at helapsed
              exact helapsed
      | alone hpoint _ => exact hcounting.outside rfl rfl (hpoint ▸ rfl) rfl
      | resume hpoint _ => exact hcounting.outside rfl rfl (hpoint ▸ rfl) rfl
      | delayUntil hpoint =>
          refine hcounting.outside rfl rfl (hpoint ▸ rfl) ?_
          rcases point_vTaskDelayUntil with ⟨wake, hwake⟩ | hcall
          · rw [hwake]
            rfl
          · rw [hcall]
            rfl
      | walk hwalk =>
          refine ⟨?_, fun hnow tick htick => ?_, hcounting.executed⟩
          · rw [hwalk.inJob_eq]
            exact hcounting.entered
          · exact hwalk.elapsed hnow (hcounting.elapsed hnow tick htick)

theorem counting (hreach : (machine tasks).Reachable state)
    (handle : TaskHandle) :
    Counting (tasks.info handle) state.now (state.thread handle) :=
  thread_invariant (Counting (tasks.info handle)) handle (.created _)
    (fun _ _ _ _ hmoves hcounting => hcounting.next hmoves) hreach

/-- A job that has passed the last check ran in its period and for its
`Runtime` ticks. -/
theorem met_of_finished (hreach : (machine tasks).Reachable state)
    (handle : TaskHandle) (hwrap : state.now < 2 ^ 32) {start n : ℕ}
    (hstart : (state.thread handle).history.start = some start)
    (hfinished : n < (state.thread handle).history.finished.length) :
    ∃ first last, (state.thread handle).history.entered[n]? = some first ∧
      (state.thread handle).history.finished[n]? = some last ∧
      first + (tasks.info handle).runtime ≤ last ∧
      last ≤ start + (n + 1) * (tasks.info handle).period := by
  have hcounting := counting hreach handle
  have hentered : n < (state.thread handle).history.entered.length := by
    rw [hcounting.entered]
    exact Nat.lt_add_right _ hfinished
  have hfirst := List.getElem?_eq_getElem hentered
  have hlast := List.getElem?_eq_getElem hfinished
  exact ⟨_, _, hfirst, hlast, hcounting.executed hwrap n _ _ hfirst hlast,
    onTime hreach handle hwrap start hstart n _ hlast⟩

end PicoSched.RunTask
