import PicoSched.Runtime.Releases

/-!
# The verdict of the monitor

`MonitorTask` reads `schedulable` once.  What it prints is true unless a thread
lets its next deadline pass without clearing the flag: a job that was starved,
suspended or is still running has reported nothing.
-/

namespace PicoSched.RunTask

open TaskManager Transition

variable {tasks : TaskSet} {task : TaskInfo} {now : ℕ} {thread thread' : Thread}
  {effect : Effect} {state : State}

/-- `MonitorTask` is about to print `ALL TASKS SCHEDULABLE`. -/
def PrintsSchedulable (tasks : TaskSet) (state : State) : Prop :=
  ∃ after, step tasks state .monitor = some after ∧
    after.monitor = .printed true

/-- Every job that is due has executed its ticks by its deadline. -/
def DueJobsMet (tasks : TaskSet) (state : State) : Prop :=
  ∀ handle ∈ tasks.handles, ∀ start,
    (state.thread handle).history.start = some start →
      ∀ n, start + (n + 1) * (tasks.info handle).period ≤ state.now →
        ∃ first last, (state.thread handle).history.entered[n]? = some first ∧
          (state.thread handle).history.finished[n]? = some last ∧
          first + (tasks.info handle).runtime ≤ last ∧
          last ≤ start + (n + 1) * (tasks.info handle).period

/-- If `MonitorTask` prints `ALL TASKS SCHEDULABLE`, this is so. -/
def VerdictSound (tasks : TaskSet) (state : State) : Prop :=
  PrintsSchedulable tasks state → DueJobsMet tasks state

/-- The end of the first period whose job has not passed the last check of
`Periodic_Job`: `LastRequestTime` is that of the current call until
`vTaskDelayUntil` adds a period. -/
def Thread.nextDeadline (task : TaskInfo) (thread : Thread) : ℕ :=
  thread.lastRequestTime + (if thread.point.served then 2 else 1) * task.period

/-- Every thread that has stored a `LastRequestTime` and let its next deadline
pass has cleared the flag. -/
def OverdueReported (tasks : TaskSet) (state : State) : Prop :=
  ∀ handle ∈ tasks.handles, (state.thread handle).point ≠ .entry →
    (state.thread handle).nextDeadline (tasks.info handle) ≤ state.now →
      (state.thread handle).point = .hang

theorem PrintsSchedulable.schedulable (hprints : PrintsSchedulable tasks state) :
    state.schedulable = true := by
  obtain ⟨after, hstep, hverdict⟩ := hprints
  rw [step, monitorStep] at hstep
  split at hstep
  · cases hstep
    cases hverdict
  · split at hstep
    · cases hstep
      exact MonitorPoint.printed.inj hverdict
    · cases hstep
  · cases hstep

/-! ## The flag -/

theorem applyEffect_schedulable (state : State) (effect : Effect) :
    (applyEffect state effect).schedulable =
      if effect = .overflow then false else state.schedulable := by
  cases effect <;> rfl

theorem Walk.hang {task : TaskInfo} {now deadline : ℕ} {point point' : Point}
    {effect : Effect} (hwalk : Walk task now deadline point point' effect)
    (hhang : point' = .hang) : effect = .overflow := by
  cases hwalk <;> first | rfl | cases hhang

/-- Only the step that clears the flag leads into the endless loop. -/
theorem ThreadStep.hang {task : TaskInfo} {now : ℕ} {thread thread' : Thread}
    {effect : Effect} (hstep : ThreadStep task now thread thread' effect)
    (hhang : thread'.point = .hang) : effect = .overflow := by
  cases hstep with
  | start _ => cases hhang
  | call _ =>
      change (if task.dependency then Point.suspend else .job) = .hang at hhang
      split at hhang <;> cases hhang
  | enter _ hchecked =>
      rcases hchecked with rfl | rfl <;> cases hhang
  | finish _ _ => cases hhang
  | alone _ _ => cases hhang
  | resume _ _ => cases hhang
  | delayUntil _ =>
      rcases point_vTaskDelayUntil with ⟨wake, hwake⟩ | hcall
      · cases hwake.symm.trans hhang
      · cases hcall.symm.trans hhang
  | walk hwalk => exact hwalk.hang hhang

/-- A thread in the endless loop has cleared the flag. -/
theorem not_schedulable_of_hang (hreach : (machine tasks).Reachable state)
    (handle : TaskHandle) (hhang : (state.thread handle).point = .hang) :
    state.schedulable = false := by
  revert hhang
  apply hreach.invariant (fun state =>
    (state.thread handle).point = .hang → state.schedulable = false) nofun
  intro state action after _ _ hstep hstate hhang
  rcases step_cases hstep with
    ⟨_, rfl⟩ | ⟨other, _, thread, effect, _, hrun, rfl⟩ | ⟨_, monitor, rfl⟩
  · exact hstate hhang
  · rw [applyEffect_schedulable]
    split
    · rfl
    · rename_i hquiet
      have hbefore : ((state.setThread other thread).thread handle).point =
          .hang := by
        by_cases heffect : effect = .resume handle
        · subst heffect
          rw [thread_applyEffect_resume] at hhang
          by_cases hpoint : ((state.setThread other thread).thread
              handle).point = .suspended
          · rw [vTaskResume_of_suspended hpoint] at hhang
            cases hhang
          · rwa [vTaskResume_of_ne hpoint] at hhang
        · rwa [thread_applyEffect_of_ne heffect] at hhang
      by_cases hother : handle = other
      · subst hother
        rw [thread_setThread_self] at hbefore
        exact absurd (hrun.hang hbefore) hquiet
      · rw [thread_setThread_of_ne hother] at hbefore
        exact hstate hbefore
  · exact hstate hhang

/-! ## Request times -/

theorem ThreadStep.finished_cases
    (hstep : ThreadStep task now thread thread' effect) :
    thread'.history.finished = thread.history.finished ∨
      tickCount now < 2 ^ 16 ∧
        thread'.history.finished = thread.history.finished ++ [now] := by
  cases hstep with
  | finish _ hcheck =>
      exact .inr ⟨hcheck.trans_lt (Nat.mod_lt _ (by norm_num)), rfl⟩
  | _ => exact .inl rfl

/-- No job passes the last check of `Periodic_Job` at a tick of more than 16
bits, since the deadline is one of 16 bits. -/
theorem finished_lt (hreach : (machine tasks).Reachable state)
    (handle : TaskHandle) (hwrap : state.now < 2 ^ 32) :
    ∀ tick ∈ (state.thread handle).history.finished, tick < 2 ^ 16 := by
  revert hwrap
  apply thread_invariant (fun now thread => now < 2 ^ 32 →
    ∀ tick ∈ thread.history.finished, tick < 2 ^ 16) handle
    (fun _ _ hnil => absurd hnil List.not_mem_nil) _ hreach
  intro now thread now' thread' hmoves hbefore hwrap tick htick
  cases hmoves with
  | stay => exact hbefore hwrap tick htick
  | tick => exact hbefore (Nat.lt_of_succ_lt hwrap) tick htick
  | resumed _ => exact hbefore hwrap tick htick
  | run hrun =>
      rcases hrun.finished_cases with hsame | ⟨hlast, hconcat⟩
      · exact hbefore hwrap tick (hsame ▸ htick)
      · rw [hconcat] at htick
        rcases List.mem_append.mp htick with hold | hnew
        · exact hbefore hwrap tick hold
        · rw [List.mem_singleton.mp hnew]
          rwa [tickCount, Nat.mod_eq_of_lt hwrap] at hlast

/-- The request times a thread has come to have not wrapped. -/
theorem request_lt (hreach : (machine tasks).Reachable state)
    (handle : TaskHandle) (hwrap : state.now < 2 ^ 32)
    (hperiod : (tasks.info handle).period ≤ 2 ^ 32 - 2 ^ 16) {start : ℕ}
    (hstart : (state.thread handle).history.start = some start) (n : ℕ)
    (hn : n ≤ (state.thread handle).history.finished.length) :
    start + n * (tasks.info handle).period < 2 ^ 32 := by
  have hcounting := counting hreach handle
  induction n with
  | zero =>
      have hbefore := (onClock hreach handle).start_le start hstart
      omega
  | succ n ih =>
      have hentered : n < (state.thread handle).history.entered.length := by
        rw [hcounting.entered]
        exact Nat.lt_add_right _ hn
      have hfirst := List.getElem?_eq_getElem hentered
      have hlast := List.getElem?_eq_getElem (Nat.lt_of_succ_le hn)
      -- job `n` was entered after its request and finished below `2 ^ 16`
      have hrequest := (released hreach handle).entered hwrap start hstart n _
        hfirst (ih (Nat.le_of_succ_le hn))
      have hexecuted := hcounting.executed hwrap n _ _ hfirst hlast
      have hshort := finished_lt hreach handle hwrap _
        (List.mem_of_getElem? hlast)
      rw [Nat.succ_mul]
      omega

theorem OnClock.calls_add (hclock : OnClock task now thread) :
    thread.calls + (if thread.point.served then 2 else 1) =
      thread.history.finished.length + 1 := by
  by_cases hserved : thread.point.served = true
  · have hpositive := hclock.served hserved
    rw [Thread.calls, if_pos hserved, if_pos hserved]
    omega
  · rw [Thread.calls, if_neg hserved, if_neg hserved]

/-- The next deadline ends the first period without a finished job, unless
`LastRequestTime` has wrapped. -/
theorem OnClock.nextDeadline_le (hclock : OnClock task now thread) {start : ℕ}
    (hstart : thread.history.start = some start) :
    thread.nextDeadline task ≤
      start + (thread.history.finished.length + 1) * task.period := by
  rw [Thread.nextDeadline, hclock.request start hstart, ← hclock.calls_add,
    Nat.add_mul, ← Nat.add_assoc]
  exact Nat.add_le_add_right (Nat.mod_le _ _) _

theorem OnClock.nextDeadline_eq (hclock : OnClock task now thread) {start : ℕ}
    (hstart : thread.history.start = some start)
    (hwrap : start + thread.calls * task.period < 2 ^ 32) :
    thread.nextDeadline task =
      start + (thread.history.finished.length + 1) * task.period := by
  rw [Thread.nextDeadline, hclock.request start hstart, ← hclock.calls_add,
    Nat.add_mul, ← Nat.add_assoc, Nat.mod_eq_of_lt hwrap]

/-! ## The verdict -/

/-- The flag is up, so a thread whose next deadline has passed is silent; when
there is none, every job that is due has finished. -/
theorem dueJobsMet_of_overdueReported
    (hreach : (machine tasks).Reachable state) (hwrap : state.now < 2 ^ 32)
    (hreported : OverdueReported tasks state)
    (hflag : state.schedulable = true) : DueJobsMet tasks state := by
  intro handle hmem start hstart n hdue
  have hclock := onClock hreach handle
  refine met_of_finished hreach handle hwrap hstart (not_le.mp fun hlate => ?_)
  have hentry : (state.thread handle).point ≠ .entry := by
    intro hpoint
    cases (hclock.entry.mpr hpoint).symm.trans hstart
  have hpassed : (state.thread handle).nextDeadline (tasks.info handle) ≤
      state.now := by
    calc
      (state.thread handle).nextDeadline (tasks.info handle) ≤
          start + ((state.thread handle).history.finished.length + 1) *
            (tasks.info handle).period := hclock.nextDeadline_le hstart
      _ ≤ start + (n + 1) * (tasks.info handle).period := by gcongr
      _ ≤ state.now := hdue
  have hcleared := not_schedulable_of_hang hreach handle
    (hreported handle hmem hentry hpassed)
  cases hflag.symm.trans hcleared

theorem overdueReported_of_dueJobsMet
    (hreach : (machine tasks).Reachable state) (hwrap : state.now < 2 ^ 32)
    (hperiods : ∀ handle ∈ tasks.handles,
      (tasks.info handle).period ≤ 2 ^ 32 - 2 ^ 16)
    (hmet : DueJobsMet tasks state) : OverdueReported tasks state := by
  intro handle hmem hentry hpassed
  have hclock := onClock hreach handle
  obtain ⟨start, hstart⟩ := Option.ne_none_iff_exists'.mp
    (mt hclock.entry.mp hentry)
  have hcalls : (state.thread handle).calls ≤
      (state.thread handle).history.finished.length := by
    rw [Thread.calls]
    split <;> omega
  rw [hclock.nextDeadline_eq hstart
    (request_lt hreach handle hwrap (hperiods handle hmem) hstart _ hcalls)]
    at hpassed
  obtain ⟨_, last, _, hlast, _⟩ := hmet handle hmem start hstart _ hpassed
  cases (List.getElem?_eq_none le_rfl).symm.trans hlast

/-- While the tick counter has not wrapped, the printed verdict is sound if no
thread has let its next deadline pass in silence, and only then. -/
theorem verdictSound_iff (hreach : (machine tasks).Reachable state)
    (hwrap : state.now < 2 ^ 32) :
    (OverdueReported tasks state → VerdictSound tasks state) ∧
      ((∀ handle ∈ tasks.handles,
          (tasks.info handle).period ≤ 2 ^ 32 - 2 ^ 16) →
        PrintsSchedulable tasks state → VerdictSound tasks state →
          OverdueReported tasks state) := by
  constructor
  · intro hreported hprints
    exact dueJobsMet_of_overdueReported hreach hwrap hreported
      hprints.schedulable
  · intro hperiods hprints hsound
    exact overdueReported_of_dueJobsMet hreach hwrap hperiods (hsound hprints)

/-- Two independent tasks of one period. -/
def twoTasks (runtime other period : ℕ) : TaskSet where
  handles := [0, 1]
  info handle :=
    if handle = 0 then
      ⟨0, "TASK 0", runtime, period, 2, 1, some 0, none, false, false, 0⟩
    else ⟨1, "TASK 1", other, period, 1, 1, some 1, none, false, false, 0⟩
  own handle hmem := by
    rcases List.mem_pair.mp hmem with rfl | rfl <;> rfl
  linked handle hmem successor hptr := by
    rcases List.mem_pair.mp hmem with rfl | rfl <;> cases hptr
  single handle hmem other _ successor hptr _ := by
    rcases List.mem_pair.mp hmem with rfl | rfl <;> cases hptr

/-- One job of `TASK 0` after the other; `TASK 1` gets its tick in between. -/
def fairRun : List Action :=
  [.monitor, .run 0, .run 0, .run 1, .run 1, .tick, .run 0, .run 0, .run 0,
    .run 0, .tick, .run 0, .run 0, .run 0, .run 1, .run 1, .run 1, .run 1,
    .tick, .run 1, .run 1, .run 1, .tick]

theorem twoTasks_verdict : ∃ state, PrintsSchedulable (twoTasks 1 1 3) state ∧
    (state.thread 1).history.finished = [3] ∧
    OverdueReported (twoTasks 1 1 3) state ∧
    VerdictSound (twoTasks 1 1 3) state := by
  have hexec : ((machine (twoTasks 1 1 3)).exec (fun _ _ => True) fairRun
      (machine (twoTasks 1 1 3)).start).any (fun state =>
        decide (state.now < 2 ^ 32 ∧ (state.thread 1).history.finished = [3] ∧
          ∀ handle ∈ (twoTasks 1 1 3).handles,
            (state.thread handle).point ≠ .entry →
              (state.thread handle).nextDeadline
                ((twoTasks 1 1 3).info handle) ≤ state.now →
              (state.thread handle).point = .hang) &&
          ((step (twoTasks 1 1 3) state .monitor).any fun after =>
            decide (after.monitor = .printed true))) = true := by decide
  obtain ⟨state, hreach, hfinal⟩ := Machine.exists_reaches_of_exec _ _ hexec
  rw [Bool.and_eq_true, Option.any_eq_true] at hfinal
  obtain ⟨hvalues, after, hstep, hverdict⟩ := hfinal
  obtain ⟨hwrap, hfinished, hreported⟩ := of_decide_eq_true hvalues
  have hprints : PrintsSchedulable (twoTasks 1 1 3) state :=
    ⟨after, hstep, of_decide_eq_true hverdict⟩
  obtain ⟨hsound, hconverse⟩ := verdictSound_iff hreach hwrap
  exact ⟨state, hprints, hfinished, hconverse (by decide) hprints
    (hsound hreported), hsound hreported⟩

/-- `TASK 0` starts its second job at once, and `TASK 1` has not run when the
monitor wakes. -/
def starvingRun : List Action :=
  [.monitor, .run 0, .run 0, .run 1, .run 1, .tick, .run 0, .run 0, .run 0,
    .run 0, .tick, .run 0, .run 0, .tick, .run 0, .run 0, .run 0, .run 0,
    .run 0, .run 0, .run 0, .run 0, .tick]

/-- The monitor prints the verdict at tick 4; the first job of `TASK 1`, with
deadline 3, has not been entered. -/
theorem twoTasks_wrong_verdict : ∃ state,
    (machine (twoTasks 2 1 3)).Reachable state ∧ state.now = 4 ∧
      PrintsSchedulable (twoTasks 2 1 3) state ∧
      (state.thread 1).history.start = some 0 ∧
      (state.thread 1).history.entered = [] ∧
      ¬DueJobsMet (twoTasks 2 1 3) state := by
  have hexec : ((machine (twoTasks 2 1 3)).exec (fun _ _ => True) starvingRun
      (machine (twoTasks 2 1 3)).start).any (fun state =>
        decide (state.now = 4 ∧ (state.thread 1).history.start = some 0 ∧
          (state.thread 1).history.entered = []) &&
          ((step (twoTasks 2 1 3) state .monitor).any fun after =>
            decide (after.monitor = .printed true))) = true := by decide
  obtain ⟨state, hreach, hfinal⟩ := Machine.exists_reaches_of_exec _ _ hexec
  rw [Bool.and_eq_true, Option.any_eq_true] at hfinal
  obtain ⟨hvalues, after, hstep, hverdict⟩ := hfinal
  obtain ⟨hnow, hstart, hentered⟩ := of_decide_eq_true hvalues
  refine ⟨state, hreach, hnow, ⟨after, hstep, of_decide_eq_true hverdict⟩,
    hstart, hentered, fun hmet => ?_⟩
  obtain ⟨first, _, hfirst, _⟩ :=
    hmet 1 (by decide) 0 hstart 0 (by rw [hnow]; decide)
  rw [hentered] at hfirst
  cases hfirst

end PicoSched.RunTask
