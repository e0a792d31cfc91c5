import PicoSched.Model.RunTask

/-!
# What can happen to a thread

The steps of one thread, sorted by what they change, and the rule that carries
a property of one thread through every run of the program.
-/

namespace PicoSched.RunTask

open TaskManager

variable {tasks : TaskSet} {task : TaskInfo} {now : ℕ}
  {thread thread' : Thread} {effect : Effect} {state after : State}
  {action : Action}

/-! ## Points -/

/-- Inside a call of `run_task`, up to the return of `Periodic_Job`. -/
def Point.inCall : Point → Bool
  | .suspend | .suspended | .job | .loop _ | .spin _ _ | .recheck => true
  | _ => false

/-- Behind the entry of a job that has not been finished. -/
def Point.inJob : Point → Bool
  | .loop _ | .spin _ _ | .recheck | .failed | .hang => true
  | _ => false

/-- The job of the current call is finished. -/
def Point.served : Point → Bool
  | .resume | .delayUntil => true
  | _ => false

/-- The steps that change nothing but the point. -/
inductive Walk (task : TaskInfo) (now deadline : ℕ) :
    Point → Point → Effect → Prop
  | syncDelay : Walk task now deadline .syncDelay
      (.delayed (delayedUntil now (msToTicks syncR))) .none
  | wake {wake : ℕ} (hwake : wake ≤ now) :
      Walk task now deadline (.delayed wake) .call .none
  | suspend : Walk task now deadline .suspend .suspended .none
  | spin {i : ℕ} (hless : i < task.runtime) :
      Walk task now deadline (.loop i) (.spin i ((tickCount now + 1) % 2 ^ 32))
        .none
  | leave {i : ℕ} (hend : task.runtime ≤ i) :
      Walk task now deadline (.loop i) .recheck .none
  | count {i counter : ℕ} (hcounter : counter ≤ tickCount now) :
      Walk task now deadline (.spin i counter) (.loop (i + 1)) .none
  | late (hlate : deadline % 2 ^ 16 < tickCount now) :
      Walk task now deadline .recheck .failed .none
  | overflow : Walk task now deadline .failed .hang .overflow

/-- The steps of a thread. -/
inductive ThreadStep (task : TaskInfo) (now : ℕ) (thread : Thread) :
    Thread → Effect → Prop
  | start (hpoint : thread.point = .entry) :
      ThreadStep task now thread
        { thread with
          point := .syncDelay
          lastRequestTime := tickCount now
          history := { thread.history with start := some now } } .none
  | call (hpoint : thread.point = .call) :
      ThreadStep task now thread
        { thread with
          point := if task.dependency then .suspend else .job
          deadline := (thread.lastRequestTime + task.period) % 2 ^ 32 } .none
  | enter {point : Point} (hpoint : thread.point = .job)
      (hchecked : point = .failed ∨ point = .loop 0) :
      ThreadStep task now thread
        { thread with
          point
          history := { thread.history with
            entered := thread.history.entered ++ [now] } } .none
  | finish (hpoint : thread.point = .recheck)
      (hcheck : tickCount now ≤ thread.deadline % 2 ^ 16) :
      ThreadStep task now thread
        { thread with
          point := .resume
          history := { thread.history with
            finished := thread.history.finished ++ [now] } } .none
  | alone (hpoint : thread.point = .resume) (hptr : task.splittedPtr = none) :
      ThreadStep task now thread { thread with point := .delayUntil } .none
  | resume {handle : TaskHandle} (hpoint : thread.point = .resume)
      (hptr : task.splittedPtr = some handle) :
      ThreadStep task now thread
        { thread with
          point := .delayUntil
          history := { thread.history with
            resumes := thread.history.resumes + 1 } } (.resume handle)
  | delayUntil (hpoint : thread.point = .delayUntil) :
      ThreadStep task now thread (vTaskDelayUntil task now thread) .none
  | walk {point : Point} {effect : Effect}
      (hwalk : Walk task now thread.deadline thread.point point effect) :
      ThreadStep task now thread { thread with point } effect

theorem threadStep_of_runThread
    (hrun : runThread task now thread = some (thread', effect)) :
    ThreadStep task now thread thread' effect := by
  rw [runThread] at hrun
  split at hrun
  case h_1 hpoint =>
    cases hrun
    exact .start hpoint
  case h_2 hpoint =>
    cases hrun
    exact .walk (hpoint ▸ .syncDelay)
  case h_3 wake hpoint =>
    split at hrun
    · rename_i hwake
      cases hrun
      exact .walk (hpoint ▸ .wake hwake)
    · cases hrun
  case h_4 hpoint =>
    cases hrun
    exact .call hpoint
  case h_5 hpoint =>
    cases hrun
    exact .walk (hpoint ▸ .suspend)
  case h_6 => cases hrun
  case h_7 hpoint =>
    cases hrun
    refine .enter hpoint ?_
    split
    · exact .inl rfl
    · exact .inr rfl
  case h_8 i hpoint =>
    cases hrun
    refine .walk ?_
    rw [hpoint]
    split
    · rename_i hless
      exact .spin hless
    · rename_i hend
      exact .leave (not_lt.mp hend)
  case h_9 i counter hpoint =>
    split at hrun
    · cases hrun
    · rename_i hcounter
      cases hrun
      exact .walk (hpoint ▸ .count (not_lt.mp hcounter))
  case h_10 hpoint =>
    split at hrun
    · rename_i hlate
      cases hrun
      exact .walk (hpoint ▸ .late hlate)
    · rename_i hcheck
      cases hrun
      exact .finish hpoint (not_lt.mp hcheck)
  case h_11 hpoint =>
    cases hrun
    exact .walk (hpoint ▸ .overflow)
  case h_12 => cases hrun
  case h_13 hpoint =>
    split at hrun
    · rename_i hptr
      cases hrun
      exact .alone hpoint hptr
    · rename_i handle hptr
      cases hrun
      exact .resume hpoint hptr
  case h_14 hpoint =>
    cases hrun
    exact .delayUntil hpoint

/-! ## `vTaskDelayUntil` and `vTaskResume` -/

@[simp]
theorem history_vTaskDelayUntil :
    (vTaskDelayUntil task now thread).history = thread.history := rfl

@[simp]
theorem lastRequestTime_vTaskDelayUntil :
    (vTaskDelayUntil task now thread).lastRequestTime =
      (thread.lastRequestTime + task.period) % 2 ^ 32 := by
  rw [vTaskDelayUntil, xTaskDelayUntil]
  split <;> rfl

/-- The thread sleeps, or calls `run_task` again at once. -/
theorem point_vTaskDelayUntil :
    (∃ wake, (vTaskDelayUntil task now thread).point = .delayed wake) ∨
      (vTaskDelayUntil task now thread).point = .call := by
  rw [vTaskDelayUntil]
  split
  · exact .inl ⟨_, rfl⟩
  · exact .inr rfl

theorem vTaskResume_of_suspended (hpoint : thread.point = .suspended) :
    vTaskResume thread = { thread with
      point := .job
      history := { thread.history with
        releases := thread.history.releases + 1 } } := by
  rw [vTaskResume, hpoint]

theorem vTaskResume_of_ne (hpoint : thread.point ≠ .suspended) :
    vTaskResume thread = thread := by
  rw [vTaskResume]
  split
  · contradiction
  · rfl

/-! ## Steps of the program -/

/-- What one step of the program can do to a thread. -/
inductive Moves (task : TaskInfo) (now : ℕ) (thread : Thread) :
    ℕ → Thread → Prop
  | stay : Moves task now thread now thread
  | tick : Moves task now thread (now + 1) thread
  | run {thread' : Thread} {effect : Effect}
      (hrun : ThreadStep task now thread thread' effect) :
      Moves task now thread now thread'
  | resumed (hpoint : thread.point = .suspended) :
      Moves task now thread now { thread with
        point := .job
        history := { thread.history with
          releases := thread.history.releases + 1 } }

@[simp]
theorem now_applyEffect (state : State) (effect : Effect) :
    (applyEffect state effect).now = state.now := by
  cases effect <;> rfl

/-- The steps of the program, one case for each kind of action. -/
theorem step_cases (hstep : step tasks state action = some after) :
    action = .tick ∧ after = { state with now := state.now + 1 } ∨
      (∃ handle ∈ tasks.handles, ∃ thread effect, action = .run handle ∧
        ThreadStep (tasks.info handle) state.now (state.thread handle) thread
          effect ∧
        after = applyEffect (state.setThread handle thread) effect) ∨
      action = .monitor ∧ ∃ monitor, after = { state with monitor } := by
  cases action with
  | tick => exact .inl ⟨rfl, (Option.some.inj hstep).symm⟩
  | run handle =>
      right
      left
      rw [step] at hstep
      split at hstep
      · rename_i hmem
        split at hstep
        · cases hstep
        · rename_i thread effect hrun
          cases hstep
          exact ⟨handle, hmem, thread, effect, rfl,
            threadStep_of_runThread hrun, rfl⟩
      · cases hstep
  | monitor =>
      right
      right
      rw [step, monitorStep] at hstep
      split at hstep
      · cases hstep
        exact ⟨rfl, _, rfl⟩
      · split at hstep
        · cases hstep
          exact ⟨rfl, _, rfl⟩
        · cases hstep
      · cases hstep

/-- An effect reaches another thread only through `vTaskResume`. -/
theorem thread_applyEffect_of_ne {handle : TaskHandle}
    (hne : effect ≠ .resume handle) :
    (applyEffect state effect).thread handle = state.thread handle := by
  cases effect with
  | none => rfl
  | overflow => rfl
  | resume other =>
      have hother : handle ≠ other := fun heq => hne (heq ▸ rfl)
      simp [applyEffect, State.setThread, hother]

theorem thread_applyEffect_resume (handle : TaskHandle) :
    (applyEffect state (.resume handle)).thread handle =
      vTaskResume (state.thread handle) := by
  simp [applyEffect, State.setThread]

theorem thread_setThread_self (handle : TaskHandle) :
    (state.setThread handle thread).thread handle = thread := by
  simp [State.setThread]

theorem thread_setThread_of_ne {handle other : TaskHandle}
    (hne : other ≠ handle) :
    (state.setThread handle thread).thread other = state.thread other := by
  simp [State.setThread, hne]

theorem Walk.not_resume {deadline : ℕ} {point point' : Point}
    {handle : TaskHandle} :
    ¬Walk task now deadline point point' (.resume handle) := by
  intro hwalk
  cases hwalk

/-- Only the step at the end of a job calls `vTaskResume`. -/
theorem ThreadStep.of_resume {handle : TaskHandle}
    (hstep : ThreadStep task now thread thread' (.resume handle)) :
    thread.point = .resume ∧ task.splittedPtr = some handle ∧
      thread' = { thread with
        point := .delayUntil
        history := { thread.history with
          resumes := thread.history.resumes + 1 } } := by
  cases hstep with
  | resume hpoint hptr => exact ⟨hpoint, hptr, rfl⟩
  | walk hwalk => exact absurd hwalk Walk.not_resume

theorem moves_of_step (hstep : step tasks state action = some after)
    (handle : TaskHandle) :
    Moves (tasks.info handle) state.now (state.thread handle) after.now
      (after.thread handle) := by
  rcases step_cases hstep with
    ⟨_, rfl⟩ | ⟨other, hmem, thread, effect, _, hrun, rfl⟩ | ⟨_, monitor, rfl⟩
  · exact .tick
  · rw [now_applyEffect]
    by_cases hother : handle = other
    · subst hother
      have hself : effect ≠ .resume handle := by
        rintro rfl
        obtain ⟨_, hptr, _⟩ := hrun.of_resume
        exact (tasks.linked handle hmem handle hptr).2.1 rfl
      rw [thread_applyEffect_of_ne hself, thread_setThread_self]
      exact .run hrun
    · by_cases heffect : effect = .resume handle
      · subst heffect
        rw [thread_applyEffect_resume, thread_setThread_of_ne hother]
        by_cases hpoint : (state.thread handle).point = .suspended
        · rw [vTaskResume_of_suspended hpoint]
          exact .resumed hpoint
        · rw [vTaskResume_of_ne hpoint]
          exact .stay
      · rw [thread_applyEffect_of_ne heffect, thread_setThread_of_ne hother]
        exact .stay
  · exact .stay

/-- What every step preserves for one thread holds in every run. -/
theorem thread_invariant (invariant : ℕ → Thread → Prop) (handle : TaskHandle)
    (hstart : invariant 0 .created)
    (hmoves : ∀ now thread now' thread',
      Moves (tasks.info handle) now thread now' thread' →
        invariant now thread → invariant now' thread')
    (hreach : (machine tasks).Reachable state) :
    invariant state.now (state.thread handle) := by
  apply hreach.invariant
    (fun state => invariant state.now (state.thread handle)) hstart
  intro state action after _ _ hstep hstate
  exact hmoves _ _ _ _ (moves_of_step hstep handle) hstate

/-- A task of two pieces, the body first. -/
def splitPair (body tail period : ℕ) : TaskSet where
  handles := [0, 1]
  info handle :=
    if handle = 0 then
      ⟨0, "TASK 0", body, period, 1, 1, some 0, some 1, false, false, 0⟩
    else ⟨7, "TASK 0", tail, period, 1, 2, some 1, none, true, false, 0⟩
  own handle hmem := by
    rcases List.mem_pair.mp hmem with rfl | rfl <;> rfl
  linked handle hmem successor hptr := by
    rcases List.mem_pair.mp hmem with rfl | rfl
    · obtain rfl := Option.some.inj hptr
      exact ⟨by simp, by simp, rfl, rfl⟩
    · cases hptr
  single handle hmem other hother successor hptr hptr' := by
    rcases List.mem_pair.mp hmem with rfl | rfl
    · rcases List.mem_pair.mp hother with rfl | rfl
      · rfl
      · cases hptr'
    · cases hptr

end PicoSched.RunTask
