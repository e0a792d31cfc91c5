import PicoSched.Runtime.Threads

/-!
# Wake-ups between the pieces of a task

`vTaskResume` wakes the next piece only when that piece has already suspended
itself.  In the runs where it always has, every call releases one job; one call
that comes too early is lost for good.
-/

namespace PicoSched.RunTask

open TaskManager Transition

variable {tasks : TaskSet} {task : TaskInfo} {now : ℕ}
  {thread thread' : Thread} {effect : Effect} {state after : State}
  {action : Action}

/-- The jobs of a piece that are over, `vTaskResume` included. -/
def Thread.completed (thread : Thread) : ℕ :=
  if thread.point = .resume then thread.history.finished.length - 1
  else thread.history.finished.length

/-- Every `vTaskResume` has released one job of the successor, and a successor
that is suspended, or about to be, is not behind its predecessor. -/
def NoLostWakeup (tasks : TaskSet) (state : State) : Prop :=
  ∀ handle ∈ tasks.handles, ∀ successor,
    (tasks.info handle).splittedPtr = some successor →
      (state.thread successor).history.releases =
          (state.thread handle).history.resumes ∧
        ((state.thread successor).point = .suspend ∨
            (state.thread successor).point = .suspended →
          (state.thread handle).completed ≤
            (state.thread successor).history.releases)

/-- The thread an action runs. -/
def Action.caller : Action → Option TaskHandle
  | .run handle => some handle
  | _ => none

/-- A thread that is about to call `vTaskResume` finds the piece it points to
in the suspended list. -/
def FindsSuspended (tasks : TaskSet) (state : State) (action : Action) : Prop :=
  ∀ handle ∈ action.caller, ∀ successor ∈ (tasks.info handle).splittedPtr,
    (state.thread handle).point = .resume →
      (state.thread successor).point = .suspended

instance (tasks : TaskSet) (state : State) (action : Action) :
    Decidable (FindsSuspended tasks state action) :=
  inferInstanceAs (Decidable (∀ handle ∈ action.caller,
    ∀ successor ∈ (tasks.info handle).splittedPtr,
      (state.thread handle).point = .resume →
        (state.thread successor).point = .suspended))

/-! ## The calls of one thread -/

theorem Walk.ne_resume {deadline : ℕ} {point point' : Point}
    (hwalk : Walk task now deadline point point' effect) :
    point ≠ .resume ∧ point' ≠ .resume := by
  cases hwalk <;> exact ⟨nofun, nofun⟩

theorem ThreadStep.releases_eq
    (hstep : ThreadStep task now thread thread' effect) :
    thread'.history.releases = thread.history.releases := by
  cases hstep <;> rfl

theorem ThreadStep.resumes_eq
    (hstep : ThreadStep task now thread thread' effect)
    (heffect : ∀ handle, effect ≠ .resume handle) :
    thread'.history.resumes = thread.history.resumes := by
  cases hstep with
  | resume _ _ => exact absurd rfl (heffect _)
  | _ => rfl

theorem completed_of_ne (hpoint : thread.point ≠ .resume) :
    thread.completed = thread.history.finished.length := if_neg hpoint

/-- A piece with a successor ends every job with one call of `vTaskResume`. -/
theorem resumes_eq_completed (hreach : (machine tasks).Reachable state)
    (handle : TaskHandle)
    (hptr : (tasks.info handle).splittedPtr ≠ none) :
    (state.thread handle).history.resumes =
      (state.thread handle).completed := by
  have hboth := thread_invariant
    (fun _ thread => thread.history.resumes = thread.completed ∧
      (thread.point = .resume → 0 < thread.history.finished.length))
    handle ⟨rfl, nofun⟩ ?_ hreach
  · exact hboth.1
  intro now thread now' thread' hmoves ⟨hresumes, hfinished⟩
  cases hmoves with
  | stay => exact ⟨hresumes, hfinished⟩
  | tick => exact ⟨hresumes, hfinished⟩
  | resumed hpoint =>
      rw [completed_of_ne (hpoint ▸ nofun)] at hresumes
      exact ⟨hresumes, nofun⟩
  | run hrun =>
      cases hrun with
      | start hpoint =>
          rw [completed_of_ne (hpoint ▸ nofun)] at hresumes
          exact ⟨hresumes, nofun⟩
      | call hpoint =>
          rw [completed_of_ne (hpoint ▸ nofun)] at hresumes
          have hnext : (if (tasks.info handle).dependency then Point.suspend
              else Point.job) ≠ .resume := by
            split <;> nofun
          exact ⟨hresumes.trans (if_neg hnext).symm, fun heq => absurd heq hnext⟩
      | enter hpoint hchecked =>
          rw [completed_of_ne (hpoint ▸ nofun)] at hresumes
          rcases hchecked with rfl | rfl <;> exact ⟨hresumes, nofun⟩
      | finish hpoint _ =>
          rw [completed_of_ne (hpoint ▸ nofun)] at hresumes
          simp [Thread.completed, hresumes]
      | alone _ hnone => exact absurd hnone hptr
      | resume hpoint _ =>
          have hpositive := hfinished hpoint
          rw [Thread.completed, if_pos hpoint] at hresumes
          refine ⟨?_, nofun⟩
          change _ + 1 = thread.history.finished.length
          omega
      | delayUntil hpoint =>
          rw [completed_of_ne (hpoint ▸ nofun)] at hresumes
          have hnext : (vTaskDelayUntil (tasks.info handle) now thread).point ≠
              .resume := by
            rcases point_vTaskDelayUntil with ⟨wake, hwake⟩ | hcall
            · exact hwake ▸ nofun
            · exact hcall ▸ nofun
          refine ⟨?_, fun heq => absurd heq hnext⟩
          rw [completed_of_ne hnext]
          exact hresumes
      | walk hwalk =>
          obtain ⟨hbefore, hafter⟩ := hwalk.ne_resume
          rw [completed_of_ne hbefore] at hresumes
          exact ⟨hresumes.trans (if_neg hafter).symm,
            fun heq => absurd heq hafter⟩

/-! ## The counters across a step -/

theorem resumes_applyEffect (state : State) (effect : Effect)
    (handle : TaskHandle) :
    ((applyEffect state effect).thread handle).history.resumes =
      (state.thread handle).history.resumes := by
  by_cases heffect : effect = .resume handle
  · subst heffect
    rw [thread_applyEffect_resume]
    by_cases hpoint : (state.thread handle).point = .suspended
    · rw [vTaskResume_of_suspended hpoint]
    · rw [vTaskResume_of_ne hpoint]
  · rw [thread_applyEffect_of_ne heffect]

/-- A step that does not resume a thread leaves both counters alone. -/
theorem counters_of_quiet {other : TaskHandle}
    (hstep : ThreadStep (tasks.info other) state.now (state.thread other)
      thread effect)
    (heffect : ∀ handle, effect ≠ .resume handle) (handle : TaskHandle) :
    ((applyEffect (state.setThread other thread) effect).thread
        handle).history.resumes = (state.thread handle).history.resumes ∧
      ((applyEffect (state.setThread other thread) effect).thread
        handle).history.releases = (state.thread handle).history.releases := by
  rw [thread_applyEffect_of_ne (heffect handle)]
  by_cases hother : handle = other
  · subst hother
    rw [thread_setThread_self]
    exact ⟨hstep.resumes_eq heffect, hstep.releases_eq⟩
  · rw [thread_setThread_of_ne hother]
    exact ⟨rfl, rfl⟩

section Resume

variable {caller successor : TaskHandle}
  (hmem : caller ∈ tasks.handles)
  (hptr : (tasks.info caller).splittedPtr = some successor)
  (hstep : ThreadStep (tasks.info caller) state.now (state.thread caller)
    thread (.resume successor))

include hstep in
/-- The call counts for the caller. -/
theorem resumes_of_resume (handle : TaskHandle) :
    ((applyEffect (state.setThread caller thread)
        (.resume successor)).thread handle).history.resumes =
      (state.thread handle).history.resumes +
        if handle = caller then 1 else 0 := by
  rw [resumes_applyEffect]
  by_cases hcaller : handle = caller
  · subst hcaller
    obtain ⟨_, _, rfl⟩ := hstep.of_resume
    rw [thread_setThread_self, if_pos rfl]
  · rw [thread_setThread_of_ne hcaller, if_neg hcaller, add_zero]

include hmem hptr hstep in
/-- The call releases the successor when that is suspended. -/
theorem releases_of_resume (handle : TaskHandle) :
    ((applyEffect (state.setThread caller thread)
        (.resume successor)).thread handle).history.releases =
      (state.thread handle).history.releases +
        if handle = successor ∧
          (state.thread successor).point = .suspended then 1 else 0 := by
  by_cases hsuccessor : handle = successor
  · subst hsuccessor
    have hne := (tasks.linked caller hmem handle hptr).2.1
    rw [thread_applyEffect_resume, thread_setThread_of_ne hne]
    by_cases hpoint : (state.thread handle).point = .suspended
    · rw [vTaskResume_of_suspended hpoint, if_pos ⟨rfl, hpoint⟩]
    · rw [vTaskResume_of_ne hpoint, if_neg fun hboth => hpoint hboth.2, add_zero]
  · have hne : (Effect.resume successor) ≠ .resume handle := fun heq =>
      hsuccessor (Effect.resume.inj heq).symm
    rw [thread_applyEffect_of_ne hne, if_neg fun hboth => hsuccessor hboth.1,
      add_zero]
    by_cases hcaller : handle = caller
    · subst hcaller
      rw [thread_setThread_self]
      exact hstep.releases_eq
    · rw [thread_setThread_of_ne hcaller]

end Resume

/-! ## Runs -/

/-- Every call of `vTaskResume` so far has released a job. -/
def Matched (tasks : TaskSet) (state : State) : Prop :=
  ∀ handle ∈ tasks.handles, ∀ successor,
    (tasks.info handle).splittedPtr = some successor →
      (state.thread successor).history.releases =
        (state.thread handle).history.resumes

theorem Matched.noLostWakeup (hreach : (machine tasks).Reachable state)
    (hmatched : Matched tasks state) : NoLostWakeup tasks state := by
  intro handle hmem successor hptr
  have hcounters := hmatched handle hmem successor hptr
  refine ⟨hcounters, fun _ => ?_⟩
  rw [hcounters, resumes_eq_completed hreach handle (by simp [hptr])]

theorem NoLostWakeup.matched (hnone : NoLostWakeup tasks state) :
    Matched tasks state :=
  fun handle hmem successor hptr => (hnone handle hmem successor hptr).1

/-- No run releases a job without a call. -/
theorem releases_le_resumes (hreach : (machine tasks).Reachable state) :
    ∀ handle ∈ tasks.handles, ∀ successor,
      (tasks.info handle).splittedPtr = some successor →
        (state.thread successor).history.releases ≤
          (state.thread handle).history.resumes := by
  apply hreach.invariant (fun state => ∀ handle ∈ tasks.handles, ∀ successor,
    (tasks.info handle).splittedPtr = some successor →
      (state.thread successor).history.releases ≤
        (state.thread handle).history.resumes) (fun _ _ _ _ => le_rfl)
  intro state action after _ _ hstep hstate handle hmem successor hptr
  have hbefore := hstate handle hmem successor hptr
  rcases step_cases hstep with
    ⟨_, rfl⟩ | ⟨other, hother, thread, effect, _, hrun, rfl⟩ | ⟨_, monitor, rfl⟩
  · exact hbefore
  · by_cases hquiet : ∀ handle, effect ≠ .resume handle
    · rw [(counters_of_quiet hrun hquiet handle).1,
        (counters_of_quiet hrun hquiet successor).2]
      exact hbefore
    · push Not at hquiet
      obtain ⟨woken, rfl⟩ := hquiet
      obtain ⟨_, hwoken, _⟩ := hrun.of_resume
      rw [resumes_of_resume hrun, releases_of_resume hother hwoken hrun]
      by_cases hsame : successor = woken
      · subst hsame
        have hcaller := tasks.single handle hmem other hother successor hptr hwoken
        rw [if_pos hcaller]
        split <;> omega
      · rw [if_neg fun hboth => hsame hboth.1]
        omega
  · exact hbefore

/-- A call that finds its target suspended keeps the counters together. -/
theorem Matched.next (hmatched : Matched tasks state)
    (hpermits : FindsSuspended tasks state action)
    (hstep : step tasks state action = some after) : Matched tasks after := by
  intro handle hmem successor hptr
  have hbefore := hmatched handle hmem successor hptr
  rcases step_cases hstep with
    ⟨_, rfl⟩ | ⟨other, hother, thread, effect, rfl, hrun, rfl⟩ |
    ⟨_, monitor, rfl⟩
  · exact hbefore
  · by_cases hquiet : ∀ handle, effect ≠ .resume handle
    · rw [(counters_of_quiet hrun hquiet handle).1,
        (counters_of_quiet hrun hquiet successor).2]
      exact hbefore
    · push Not at hquiet
      obtain ⟨woken, rfl⟩ := hquiet
      obtain ⟨hpoint, hwoken, _⟩ := hrun.of_resume
      have hsuspended : (state.thread woken).point = .suspended := by
        exact hpermits other rfl woken hwoken hpoint
      rw [resumes_of_resume hrun, releases_of_resume hother hwoken hrun]
      by_cases hsame : successor = woken
      · subst hsame
        have hcaller := tasks.single handle hmem other hother successor hptr hwoken
        rw [if_pos hcaller, if_pos ⟨rfl, hsuspended⟩, hbefore]
      · have hcaller : handle ≠ other := by
          rintro rfl
          rw [hptr] at hwoken
          exact hsame (Option.some.inj hwoken)
        rw [if_neg hcaller, if_neg fun hboth => hsame hboth.1, hbefore]
  · exact hbefore

/-- At the end of a job a thread calls `vTaskResume` on its successor. -/
theorem ThreadStep.effect_of_resume {successor : TaskHandle}
    (hstep : ThreadStep task now thread thread' effect)
    (hpoint : thread.point = .resume)
    (hptr : task.splittedPtr = some successor) : effect = .resume successor := by
  cases hstep with
  | start hother => exact absurd (hpoint.symm.trans hother) nofun
  | call hother => exact absurd (hpoint.symm.trans hother) nofun
  | enter hother _ => exact absurd (hpoint.symm.trans hother) nofun
  | finish hother _ => exact absurd (hpoint.symm.trans hother) nofun
  | alone _ hnone => exact absurd (hptr.symm.trans hnone) nofun
  | resume _ hsome => rw [Option.some.inj (hptr.symm.trans hsome)]
  | delayUntil hother => exact absurd (hpoint.symm.trans hother) nofun
  | walk hwalk => exact absurd hpoint hwalk.ne_resume.1

/-- A lost call is never made up for: counters that agree after a step agreed
before it, and the step lost no call. -/
theorem Matched.previous (hreach : (machine tasks).Reachable state)
    (hstep : step tasks state action = some after)
    (hmatched : Matched tasks after) :
    Matched tasks state ∧ FindsSuspended tasks state action := by
  have hle := releases_le_resumes hreach
  rcases step_cases hstep with
    ⟨rfl, rfl⟩ | ⟨other, hother, thread, effect, rfl, hrun, rfl⟩ |
    ⟨rfl, monitor, rfl⟩
  · exact ⟨hmatched, nofun⟩
  · by_cases hquiet : ∀ handle, effect ≠ .resume handle
    · constructor
      · intro handle hmem successor hptr
        have hafter := hmatched handle hmem successor hptr
        rwa [(counters_of_quiet hrun hquiet handle).1,
          (counters_of_quiet hrun hquiet successor).2] at hafter
      · intro handle hcaller successor hptr hpoint
        cases hcaller
        exact absurd (hrun.effect_of_resume hpoint hptr) (hquiet successor)
    · push Not at hquiet
      obtain ⟨woken, rfl⟩ := hquiet
      obtain ⟨_, hwoken, _⟩ := hrun.of_resume
      have hsuspended : (state.thread woken).point = .suspended := by
        have hbefore := hle other hother woken hwoken
        have hafter := hmatched other hother woken hwoken
        rw [resumes_of_resume hrun, releases_of_resume hother hwoken hrun,
          if_pos rfl] at hafter
        by_contra hawake
        rw [if_neg fun hboth => hawake hboth.2] at hafter
        omega
      constructor
      · intro handle hmem successor hptr
        have hafter := hmatched handle hmem successor hptr
        rw [resumes_of_resume hrun, releases_of_resume hother hwoken hrun]
          at hafter
        by_cases hcaller : handle = other
        · subst hcaller
          rw [hptr] at hwoken
          obtain rfl := Option.some.inj hwoken
          rw [if_pos rfl, if_pos ⟨rfl, hsuspended⟩] at hafter
          exact Nat.add_right_cancel hafter
        · have hsame : successor ≠ woken := by
            rintro rfl
            exact hcaller
              (tasks.single handle hmem other hother successor hptr hwoken)
          rwa [if_neg hcaller, if_neg fun hboth => hsame hboth.1] at hafter
      · intro handle hcaller successor hptr _
        cases hcaller
        obtain rfl := Option.some.inj (hwoken.symm.trans hptr)
        exact hsuspended
  · exact ⟨hmatched, nofun⟩

/-- A reachable state shows no lost wake-up exactly when it can be reached with
every `vTaskResume` finding its target in the suspended list. -/
theorem noLostWakeup_iff (hreach : (machine tasks).Reachable state) :
    NoLostWakeup tasks state ↔
      (machine tasks).Reaches (FindsSuspended tasks) state := by
  constructor
  · intro hnone
    have hmatched := hnone.matched
    clear hnone
    induction hreach with
    | start => exact .start
    | next hbefore _ hstep ih =>
        obtain ⟨hprevious, hpermits⟩ := hmatched.previous hbefore hstep
        exact .next (ih hprevious) hpermits hstep
  · intro hsuspended
    refine Matched.noLostWakeup hreach ?_
    induction hsuspended with
    | start => exact fun _ _ _ _ => rfl
    | next hbefore hpermits hstep ih =>
        exact (ih hbefore.reachable).next hpermits hstep

/-- The tail suspends itself before the body is done with its first job. -/
def wakingRun : List Action :=
  [.run 0, .run 0, .run 1, .run 1, .tick, .run 1, .run 1, .run 1, .run 0,
    .run 0, .run 0, .run 0, .tick, .run 0, .run 0, .run 0, .run 0]

theorem splitPair_wakes : ∃ state,
    (machine (splitPair 1 1 10)).Reaches (FindsSuspended (splitPair 1 1 10))
        state ∧
      (state.thread 1).history.releases = 1 ∧
      NoLostWakeup (splitPair 1 1 10) state := by
  have hexec : ((machine (splitPair 1 1 10)).exec
      (FindsSuspended (splitPair 1 1 10)) wakingRun
      (machine (splitPair 1 1 10)).start).any (fun state =>
        decide ((state.thread 1).history.releases = 1)) = true := by decide
  obtain ⟨state, hreach, hreleased⟩ := Machine.exists_reaches_of_exec _ _ hexec
  exact ⟨state, hreach, of_decide_eq_true hreleased,
    (noLostWakeup_iff hreach.reachable).mpr hreach⟩

/-- The tail is started two ticks after the body. -/
def losingRun : List Action :=
  [.run 0, .run 0, .tick, .run 0, .run 0, .run 0, .run 0, .tick, .run 0,
    .run 0, .run 0, .run 0, .run 1, .run 1, .tick, .run 1, .run 1, .run 1]

/-- The body has finished its first job when the tail suspends itself, and
nobody will wake the tail for that job. -/
theorem splitPair_lost_wakeup : ∃ state,
    (machine (splitPair 1 1 10)).Reachable state ∧
      (state.thread 1).point = .suspended ∧
      (state.thread 1).history.releases < (state.thread 0).completed ∧
      ¬NoLostWakeup (splitPair 1 1 10) state := by
  have hexec : ((machine (splitPair 1 1 10)).exec (fun _ _ => True) losingRun
      (machine (splitPair 1 1 10)).start).any (fun state =>
        decide ((state.thread 1).point = .suspended ∧
          (state.thread 1).history.releases < (state.thread 0).completed)) =
            true := by decide
  obtain ⟨state, hreach, hlost⟩ := Machine.exists_reaches_of_exec _ _ hexec
  obtain ⟨hpoint, hless⟩ := of_decide_eq_true hlost
  refine ⟨state, hreach, hpoint, hless, fun hnone => ?_⟩
  have hle := (hnone 0 (by decide) 1 rfl).2 (.inr hpoint)
  exact absurd hless (not_lt.mpr hle)

end PicoSched.RunTask
