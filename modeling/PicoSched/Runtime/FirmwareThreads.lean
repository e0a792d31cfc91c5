import PicoSched.Model.Firmware
import PicoSched.Runtime.Delays
import PicoSched.Runtime.Threads

/-!
# The threads on the kernel

A thread on the kernel, whose delays are made of several calls and whose tick
count wraps, against the thread that sleeps until a tick.  What the kernel calls
do to the tasks is taken from the clock they keep.
-/

namespace PicoSched.Firmware

open DelayedTasks RunTask TaskManager

variable {setup : Setup} {state after : State} {clock : Clock TaskHandle}
  {program : RunTask.State} {condition : Condition} {now : ℕ}
  {handle : TaskHandle}

/-! ## Related threads -/

/-- The point of the running program, but for the time that is slept. -/
def Point.coarse : Point → RunTask.Point
  | .entry => .entry
  | .delay .before | .delay .suspended => .syncDelay
  | .delay .listed | .call | .delayUntil .listed => .call
  | .suspend => .suspend
  | .job => .job
  | .loop i => .loop i
  | .spin i counter => .spin i counter
  | .recheck => .recheck
  | .failed => .failed
  | .hang => .hang
  | .resume => .resume
  | .delayUntil .before | .delayUntil .suspended => .delayUntil

/-- Where a thread stands in both programs, by the condition of its task. -/
inductive PointMatches (now : ℕ) : Condition → Point → RunTask.Point → Prop
  | same {point : Point} : PointMatches now .ready point point.coarse
  | suspended : PointMatches now .suspended .job .suspended
  | asleep {point : Point} {wake : ℕ} (hcall : point.coarse = .call) :
      PointMatches now (.asleep wake) point (.delayed wake)
  /-- The delay has ended, but the thread has not gone on yet. -/
  | awake {point : Point} {wake : ℕ} (hcall : point.coarse = .call)
      (hwake : wake ≤ now) : PointMatches now .ready point (.delayed wake)

structure ThreadMatches (now : ℕ) (condition : Condition) (thread : Thread)
    (other : RunTask.Thread) : Prop where
  point : PointMatches now condition thread.point other.point
  lastRequestTime : other.lastRequestTime = thread.lastRequestTime
  deadline : other.deadline = thread.deadline

def MonitorPoint.coarse : MonitorPoint → Option RunTask.MonitorPoint
  | .entry | .delay .before | .delay .suspended => some .entry
  | .delay .listed | .verdict => none
  | .delete allTasksSchedulable _ => some (.printed allTasksSchedulable)

inductive MonitorMatches (now : ℕ) :
    Condition → MonitorPoint → RunTask.MonitorPoint → Prop
  | same {point : MonitorPoint} {other : RunTask.MonitorPoint}
      (hsame : point.coarse = some other) :
      MonitorMatches now .ready point other
  | asleep {point : MonitorPoint} {wake : ℕ} (hdelay : point.coarse = none) :
      MonitorMatches now (.asleep wake) point (.delayed wake)
  | awake {point : MonitorPoint} {wake : ℕ} (hdelay : point.coarse = none)
      (hwake : wake ≤ now) : MonitorMatches now .ready point (.delayed wake)

/-- The task has not been deleted. -/
def Lives (condition : Condition) : Prop :=
  condition ≠ .deleted ∧ condition ≠ .absent

theorem lives_of_ready (hready : condition = .ready) : Lives condition := by
  rw [hready]
  exact ⟨Condition.noConfusion, Condition.noConfusion⟩

/-- The history of a thread, with the ticks as the tick count shows them. -/
def jobsOf (history : History) : Jobs where
  start := history.start.map tickCount
  entered := history.entered.map tickCount
  finished := history.finished.map tickCount

/-- The threads have done the same jobs, and the tasks that have not been
deleted stand at the same points. -/
structure Agrees (setup : Setup) (state : State)
    (condition : TaskHandle → Condition) (now : ℕ) (program : RunTask.State) :
    Prop where
  ticks : program.now = now
  schedulable : program.schedulable = state.schedulable
  jobs : ∀ handle ∈ setup.tasks.handles, (state.thread handle).jobs =
    jobsOf (program.thread handle).history
  thread : ∀ handle ∈ setup.tasks.handles, Lives (condition handle) →
    ThreadMatches now (condition handle) (state.thread handle)
      (program.thread handle)
  monitor : Lives (condition setup.monitor) →
    MonitorMatches now (condition setup.monitor) state.monitor program.monitor

structure Follows (setup : Setup) (state : State) (clock : Clock TaskHandle)
    (program : RunTask.State) : Prop where
  tracks : Tracks setup.kernel state.kernel clock
  resumed : clock.resumed = fun _ => false
  elapsed : clock.Elapsed state.ticks
  reachable : (RunTask.machine setup.tasks).Reachable program
  agrees : Agrees setup state clock.condition clock.now program

/-! ## Ticks -/

theorem lives_tick (condition : Condition) (now : ℕ) :
    Lives (condition.tick now) ↔ Lives condition := by
  cases condition with
  | asleep wake =>
      rw [Condition.tick]
      split <;> simp [Lives]
  | _ => rfl

theorem PointMatches.tick {point : Point} {other : RunTask.Point}
    (hpoint : PointMatches now condition point other) :
    PointMatches (now + 1) (condition.tick (now + 1)) point other := by
  cases hpoint with
  | same => exact .same
  | suspended => exact .suspended
  | asleep hcall =>
      rw [Condition.tick]
      split
      · rename_i heq
        exact .awake hcall heq.le
      · exact .asleep hcall
  | awake hcall hwake => exact .awake hcall (Nat.le_succ_of_le hwake)

theorem MonitorMatches.tick {point : MonitorPoint}
    {other : RunTask.MonitorPoint}
    (hpoint : MonitorMatches now condition point other) :
    MonitorMatches (now + 1) (condition.tick (now + 1)) point other := by
  cases hpoint with
  | same hsame => exact .same hsame
  | asleep hdelay =>
      rw [Condition.tick]
      split
      · rename_i heq
        exact .awake hdelay heq.le
      · exact .asleep hdelay
  | awake hdelay hwake => exact .awake hdelay (Nat.le_succ_of_le hwake)

theorem Agrees.tick {condition : TaskHandle → Condition}
    (hagrees : Agrees setup state condition now program) :
    Agrees setup state (fun handle => (condition handle).tick (now + 1))
      (now + 1) { program with now := program.now + 1 } where
  ticks := congrArg (· + 1) hagrees.ticks
  schedulable := hagrees.schedulable
  jobs := hagrees.jobs
  thread handle hmem hlives := by
    have hthread := hagrees.thread handle hmem ((lives_tick _ _).mp hlives)
    exact ⟨hthread.point.tick, hthread.lastRequestTime, hthread.deadline⟩
  monitor hlives := (hagrees.monitor ((lives_tick _ _).mp hlives)).tick

theorem reachable_tick {tasks : TaskSet}
    (hreach : (RunTask.machine tasks).Reachable program) :
    (RunTask.machine tasks).Reachable
      { program with now := program.now + 1 } := by
  have hstep : (RunTask.machine tasks).step program .tick =
      some { program with now := program.now + 1 } := rfl
  exact .next hreach trivial hstep

/-- The ticks that the kernel processes at once are ticks of the program. -/
theorem Agrees.ticks_advance
    (hreach : (RunTask.machine setup.tasks).Reachable program)
    (clock : Clock TaskHandle)
    (hagrees : Agrees setup state clock.condition clock.now program)
    (ticks : ℕ) :
    ∃ program', (RunTask.machine setup.tasks).Reachable program' ∧
      Agrees setup state (Clock.advance^[ticks] clock).condition
        (Clock.advance^[ticks] clock).now program' := by
  induction ticks generalizing clock program with
  | zero => exact ⟨program, hreach, hagrees⟩
  | succ ticks ih => exact ih (reachable_tick hreach) clock.advance hagrees.tick

theorem Agrees.resumeAll
    (hreach : (RunTask.machine setup.tasks).Reachable program)
    (hagrees : Agrees setup state clock.condition clock.now program)
    (hresumed : clock.resumed = fun _ => false) :
    ∃ program', (RunTask.machine setup.tasks).Reachable program' ∧
      Agrees setup state clock.resumeAll.condition clock.resumeAll.now
        program' := by
  rw [Clock.resumeAll]
  split
  · have hreleased : clock.release.condition = clock.condition := by
      funext handle
      rw [Clock.release, hresumed]
      rfl
    rw [← hreleased] at hagrees
    exact Agrees.ticks_advance hreach { clock.release with suspensions := 0 } hagrees
      clock.pended
  · exact ⟨program, hreach, hagrees⟩

theorem resumed_resumeAll (hresumed : clock.resumed = fun _ => false) :
    clock.resumeAll.resumed = fun _ => false := by
  have hadvance : ∀ (ticks : ℕ) (clock : Clock TaskHandle),
      (Clock.advance^[ticks] clock).resumed = clock.resumed := by
    intro ticks
    induction ticks with
    | zero => exact fun _ => rfl
    | succ ticks ih => exact fun clock => ih clock.advance
  rw [Clock.resumeAll]
  split
  · exact hadvance _ _
  · exact hresumed

/-! ## Steps of a thread -/

section Run

variable {thread thread' : Thread} {other other' : RunTask.Thread}
  {conditions : TaskHandle → Condition}

theorem reachable_run {effect : RunTask.Effect}
    (hreach : (RunTask.machine setup.tasks).Reachable program)
    (hmem : handle ∈ setup.tasks.handles)
    (hrun : RunTask.runThread (setup.tasks.info handle) program.now
      (program.thread handle) = some (other, effect)) :
    (RunTask.machine setup.tasks).Reachable
      (RunTask.applyEffect (program.setThread handle other) effect) := by
  have hstep : (RunTask.machine setup.tasks).step program (.run handle) =
      some (RunTask.applyEffect (program.setThread handle other) effect) := by
    change (if _ then _ else _) = _
    rw [if_pos hmem, hrun]
  exact .next hreach trivial hstep

/-- The thread and the condition of its task change together. -/
theorem Agrees.update (hagrees : Agrees setup state conditions now program)
    (hmem : handle ∈ setup.tasks.handles)
    (hthread : Lives condition → ThreadMatches now condition thread other)
    (hjobs : thread.jobs = jobsOf other.history) :
    Agrees setup (state.setThread handle thread)
      (Function.update conditions handle condition) now
      (program.setThread handle other) where
  ticks := hagrees.ticks
  schedulable := hagrees.schedulable
  jobs entry hentry := by
    change (Function.update state.thread handle thread entry).jobs =
      jobsOf (Function.update program.thread handle other entry).history
    by_cases heq : entry = handle
    · subst heq
      simpa only [Function.update_self] using hjobs
    · simpa only [Function.update_of_ne heq] using hagrees.jobs entry hentry
  thread entry hentry hlives := by
    change ThreadMatches now _ (Function.update state.thread handle thread entry)
      (Function.update program.thread handle other entry)
    by_cases heq : entry = handle
    · subst heq
      simp only [Function.update_self] at hlives ⊢
      exact hthread hlives
    · rw [Function.update_of_ne heq] at hlives
      simpa only [Function.update_of_ne heq] using
        hagrees.thread entry hentry hlives
  monitor hlives := by
    have hne : setup.monitor ≠ handle := by
      rintro rfl
      exact (List.nodup_cons.mp setup.distinct).1 hmem
    rw [Function.update_of_ne hne] at hlives ⊢
    exact hagrees.monitor hlives

theorem Agrees.update_same (hagrees : Agrees setup state conditions now program)
    (hmem : handle ∈ setup.tasks.handles)
    (hthread : Lives (conditions handle) →
      ThreadMatches now (conditions handle) thread other)
    (hjobs : thread.jobs = jobsOf other.history) :
    Agrees setup (state.setThread handle thread) conditions now
      (program.setThread handle other) := by
  have hupdate := hagrees.update hmem hthread hjobs
  rwa [Function.update_eq_self] at hupdate

/-- A sleeper that has been woken goes on. -/
theorem Follows.goesOn (hfollows : Follows setup state clock program)
    (hmem : handle ∈ setup.tasks.handles)
    (hready : clock.condition handle = .ready) :
    ∃ program, Follows setup state clock program ∧
      (program.thread handle).point = (state.thread handle).point.coarse := by
  obtain ⟨htracks, hresumed, helapsed, hreach, hagrees⟩ := hfollows
  obtain ⟨hpoint, hlast, hdeadline⟩ :=
    hagrees.thread handle hmem (lives_of_ready hready)
  rw [hready] at hpoint
  generalize hother : (program.thread handle).point = other at hpoint
  cases hpoint with
  | same => exact ⟨program, ⟨htracks, hresumed, helapsed, hreach, hagrees⟩, hother⟩
  | awake hcall hwake =>
      have hrun : RunTask.runThread (setup.tasks.info handle) program.now
          (program.thread handle) =
            some ({ program.thread handle with point := .call }, .none) := by
        rw [RunTask.runThread, hother]
        exact if_pos (hagrees.ticks.symm ▸ hwake)
      have hmatches : ThreadMatches clock.now (clock.condition handle)
          (state.thread handle) { program.thread handle with point := .call } := by
        rw [hready]
        refine ⟨?_, hlast, hdeadline⟩
        rw [← hcall]
        exact .same
      refine ⟨_, ⟨htracks, hresumed, helapsed, reachable_run hreach hmem hrun, ?_⟩,
        ?_⟩
      · have hjobs : (state.thread handle).jobs =
            jobsOf { program.thread handle with point := .call }.history :=
          hagrees.jobs handle hmem
        have hupdate := hagrees.update_same hmem (fun _ => hmatches) hjobs
        rwa [State.setThread, Function.update_eq_self] at hupdate
      · change (Function.update program.thread handle _ handle).point = _
        rw [Function.update_self, hcall]

/-- A step that calls nothing. -/
theorem Follows.runs (hfollows : Follows setup state clock program)
    (hmem : handle ∈ setup.tasks.handles)
    (hready : clock.condition handle = .ready)
    (hrun : RunTask.runThread (setup.tasks.info handle) program.now
      (program.thread handle) = some (other, .none))
    (hthread : ThreadMatches clock.now .ready thread other)
    (hjobs : thread.jobs = jobsOf other.history) :
    Follows setup (state.setThread handle thread) clock
      (program.setThread handle other) :=
  ⟨hfollows.tracks, hfollows.resumed, hfollows.elapsed,
    reachable_run hfollows.reachable hmem hrun,
    hfollows.agrees.update_same hmem (fun _ => by rwa [hready]) hjobs⟩

/-- The points at which a thread computes and calls nothing. -/
def Point.computes : Point → Bool
  | .entry | .call | .job | .loop _ | .spin _ _ | .recheck => true
  | _ => false

theorem runThread_computes {task : TaskInfo} {effect : Effect}
    (hpoint : thread.point.computes = true)
    (hsame : other.point = thread.point.coarse)
    (hlast : other.lastRequestTime = thread.lastRequestTime)
    (hdeadline : other.deadline = thread.deadline)
    (hjobs : thread.jobs = jobsOf other.history)
    (hrun : runThread handle task (tickCount now) thread =
      some (thread', effect)) :
    effect = .none ∧ ∃ other',
      RunTask.runThread task now other = some (other', .none) ∧
        thread'.jobs = jobsOf other'.history ∧
        ThreadMatches now .ready thread' other' := by
  rw [runThread] at hrun
  rw [RunTask.runThread, hsame]
  cases hcase : thread.point with
  | entry =>
      rw [hcase] at hrun
      cases hrun
      refine ⟨rfl, _, rfl, ?_, .same, rfl, hdeadline⟩
      rw [hjobs]
      rfl
  | call =>
      rw [hcase] at hrun
      cases hrun
      refine ⟨rfl, _, rfl, hjobs, ?_, hlast, ?_⟩
      · dsimp only
        split
        · exact .same
        · exact .same
      · dsimp only
        rw [hlast]
  | job =>
      rw [hcase] at hrun
      cases hrun
      refine ⟨rfl, _, rfl, ?_, ?_, hlast, hdeadline⟩
      · simp only [hjobs, jobsOf, List.map_append, List.map_cons, List.map_nil]
      · dsimp only
        rw [hdeadline]
        split
        · exact .same
        · exact .same
  | loop i =>
      rw [hcase] at hrun
      cases hrun
      refine ⟨rfl, _, rfl, hjobs, ?_, hlast, hdeadline⟩
      dsimp only
      split
      · exact .same
      · exact .same
  | spin i counter =>
      rw [hcase] at hrun
      dsimp only at hrun
      split at hrun
      · cases hrun
      · rename_i hcounter
        cases hrun
        exact ⟨rfl, _, if_neg hcounter, hjobs, .same, hlast, hdeadline⟩
  | recheck =>
      rw [hcase] at hrun
      dsimp only [Point.coarse] at hrun ⊢
      rw [hdeadline]
      split at hrun
      · rename_i hlate
        cases hrun
        exact ⟨rfl, _, if_pos hlate, hjobs, .same, hlast, rfl⟩
      · rename_i hcheck
        cases hrun
        refine ⟨rfl, _, if_neg hcheck, ?_, .same, hlast, rfl⟩
        simp only [hjobs, jobsOf, List.map_append, List.map_cons, List.map_nil]
  | _ =>
      rw [hcase] at hpoint
      cases hpoint

/-- A step that calls the kernel for the task of the thread itself. -/
theorem Follows.calls (hfollows : Follows setup state clock program)
    (hmem : handle ∈ setup.tasks.handles)
    {kernel : DelayedTasks.State TaskHandle}
    (htracks : Tracks setup.kernel kernel (clock.setCondition handle condition))
    (hrun : RunTask.runThread (setup.tasks.info handle) program.now
      (program.thread handle) = some (other, .none))
    (hthread : ThreadMatches clock.now condition thread other)
    (hjobs : thread.jobs = jobsOf other.history) :
    Follows setup { state.setThread handle thread with kernel := kernel }
      (clock.setCondition handle condition)
      (program.setThread handle other) where
  tracks := htracks
  resumed := by
    rw [Clock.setCondition, hfollows.resumed]
    exact Function.update_eq_self ..
  elapsed := ⟨hfollows.elapsed.total, hfollows.elapsed.pended⟩
  reachable := reachable_run hfollows.reachable hmem hrun
  agrees :=
    let hupdate := hfollows.agrees.update hmem (fun _ => hthread) hjobs
    ⟨hupdate.ticks, hupdate.schedulable, hupdate.jobs, hupdate.thread,
      hupdate.monitor⟩

theorem PointMatches.of_coarse {point point' : Point} {other : RunTask.Point}
    (hpoint : PointMatches now condition point other)
    (hsame : point'.coarse = point.coarse) :
    PointMatches now condition point' other := by
  cases hpoint with
  | same =>
      rw [← hsame]
      exact .same
  | suspended =>
      cases point' with
      | job => exact .suspended
      | delay phase | delayUntil phase => cases phase <;> cases hsame
      | _ => cases hsame
  | asleep hcall => exact .asleep (hsame.trans hcall)
  | awake hcall hwake => exact .awake (hsame.trans hcall) hwake

/-- A move of the thread that the running program does not see. -/
theorem Agrees.moves (hagrees : Agrees setup state conditions now program)
    (point : Point) (hsame : point.coarse = (state.thread handle).point.coarse) :
    Agrees setup
      (state.setThread handle { state.thread handle with point := point })
      conditions now program where
  ticks := hagrees.ticks
  schedulable := hagrees.schedulable
  jobs entry hentry := by
    change (Function.update state.thread handle _ entry).jobs = _
    rw [← hagrees.jobs entry hentry]
    by_cases heq : entry = handle
    · subst heq
      rw [Function.update_self]
    · rw [Function.update_of_ne heq]
  thread entry hentry hlives := by
    have hthread := hagrees.thread entry hentry hlives
    change ThreadMatches now _ (Function.update state.thread handle _ entry) _
    by_cases heq : entry = handle
    · subst heq
      rw [Function.update_self]
      exact ⟨hthread.point.of_coarse hsame, hthread.lastRequestTime,
        hthread.deadline⟩
    · rwa [Function.update_of_ne heq]
  monitor := hagrees.monitor

end Run

/-! ## The simulation -/

theorem Agrees.setKernel {conditions : TaskHandle → Condition}
    (hagrees : Agrees setup state conditions now program)
    (kernel : DelayedTasks.State TaskHandle) :
    Agrees setup { state with kernel := kernel } conditions now program :=
  ⟨hagrees.ticks, hagrees.schedulable, hagrees.jobs, hagrees.thread,
    hagrees.monitor⟩

theorem Agrees.setTicks {conditions : TaskHandle → Condition}
    (hagrees : Agrees setup state conditions now program) (ticks : ℕ) :
    Agrees setup { state with ticks := ticks } conditions now program :=
  ⟨hagrees.ticks, hagrees.schedulable, hagrees.jobs, hagrees.thread,
    hagrees.monitor⟩

theorem Follows.suspendAll (hfollows : Follows setup state clock program)
    {kernel : DelayedTasks.State TaskHandle}
    (htracks : Tracks setup.kernel kernel
      { clock with suspensions := clock.suspensions + 1 }) :
    Follows setup { state with kernel := kernel }
      { clock with suspensions := clock.suspensions + 1 } program :=
  ⟨htracks, hfollows.resumed,
    ⟨hfollows.elapsed.total, fun hzero => absurd hzero (Nat.succ_ne_zero _)⟩,
    hfollows.reachable, hfollows.agrees.setKernel kernel⟩

theorem Follows.resumeAll (hfollows : Follows setup state clock program)
    {kernel : DelayedTasks.State TaskHandle}
    (htracks : Tracks setup.kernel kernel clock.resumeAll) :
    ∃ program, Follows setup { state with kernel := kernel } clock.resumeAll
      program := by
  obtain ⟨program', hreach, hagrees⟩ :=
    hfollows.agrees.resumeAll hfollows.reachable hfollows.resumed
  exact ⟨program', htracks, resumed_resumeAll hfollows.resumed,
    hfollows.elapsed.resumeAll, hreach, hagrees.setKernel kernel⟩

/-- A call of the kernel in a run. -/
theorem tracks_kernel {action : DelayedTasks.Action TaskHandle}
    (hstep : applyEffect setup state (.kernel action) = some after)
    (htracks : Tracks setup.kernel state.kernel clock)
    (hfits : state.kernel.xPendedTicks + 1 < 2 ^ 32 ∧
      state.kernel.uxSchedulerSuspended + 1 < 2 ^ 32) :
    ∃ kernel clock', after = { state with kernel := kernel } ∧
      clock.step action = some clock' ∧
      Tracks setup.kernel kernel clock' := by
  obtain ⟨kernel, hkernel, rfl⟩ := Option.map_eq_some_iff.mp hstep
  have hclock : clock.Fits action := by
    rw [htracks.pended, htracks.suspensions] at hfits
    cases action with
    | tick => exact hfits.1
    | suspendAll => exact hfits.2
    | _ => trivial
  obtain ⟨clock', hstep', htracks'⟩ := htracks.of_step hclock hkernel
  exact ⟨kernel, clock', rfl, hstep', htracks'⟩

theorem runThread_listed {task : TaskInfo} {tick : ℕ}
    {thread thread' : Thread} {effect : Effect}
    (hlisted : thread.point.isListed = true)
    (hrun : runThread handle task tick thread = some (thread', effect)) :
    thread' = { thread with point := .call } ∧
      effect = .kernel .resumeAll ∧ thread.point.coarse = .call := by
  rw [runThread] at hrun
  cases hpoint : thread.point with
  | delay phase | delayUntil phase =>
      rw [hpoint] at hrun hlisted
      cases phase <;> cases hlisted
      cases hrun
      exact ⟨rfl, rfl, rfl⟩
  | _ =>
      rw [hpoint] at hlisted
      cases hlisted

theorem Follows.moves (hfollows : Follows setup state clock program)
    (point : Point) (hsame : point.coarse = (state.thread handle).point.coarse) :
    Follows setup
      (state.setThread handle { state.thread handle with point := point }) clock
      program :=
  ⟨hfollows.tracks, hfollows.resumed, hfollows.elapsed, hfollows.reachable,
    hfollows.agrees.moves point hsame⟩

theorem Follows.run_listed (hfollows : Follows setup state clock program)
    (hfits : Fits state (.run handle)) {thread : Thread} {effect : Effect}
    (hlisted : (state.thread handle).point.isListed = true)
    (hrun : runThread handle (setup.tasks.info handle) state.kernel.xTickCount
      (state.thread handle) = some (thread, effect))
    (hstep : applyEffect setup (state.setThread handle thread) effect =
      some after) :
    ∃ clock program, Follows setup after clock program := by
  obtain ⟨rfl, rfl, hcall⟩ := runThread_listed hlisted hrun
  obtain ⟨kernel, clock', rfl, hclock, htracks⟩ :=
    tracks_kernel hstep hfollows.tracks hfits
  obtain ⟨-, ⟨⟩⟩ := Option.ite_none_right_eq_some.mp hclock
  exact ⟨_, (hfollows.moves .call hcall.symm).resumeAll htracks⟩

theorem coarse_ne_suspended (point : Point) : point.coarse ≠ .suspended := by
  cases point with
  | delay phase | delayUntil phase => cases phase <;> exact RunTask.Point.noConfusion
  | _ => exact RunTask.Point.noConfusion

theorem PointMatches.suspended_iff {point : Point} {other : RunTask.Point}
    (hpoint : PointMatches now condition point other) :
    other = .suspended ↔ condition = .suspended := by
  cases hpoint with
  | same =>
      exact iff_of_false (coarse_ne_suspended point) Condition.noConfusion
  | suspended => exact iff_of_true rfl rfl
  | asleep | awake =>
      exact iff_of_false RunTask.Point.noConfusion Condition.noConfusion

/-- `vTaskResume` finds a thread suspended in both programs or in none. -/
theorem ThreadMatches.vTaskResume {thread : Thread} {other : RunTask.Thread}
    (hthread : ThreadMatches now condition thread other) :
    ThreadMatches now (if condition = .suspended then .ready else condition)
      thread (RunTask.vTaskResume other) := by
  obtain ⟨hpoint, hlast, hdeadline⟩ := hthread
  by_cases hsuspended : condition = .suspended
  · rw [if_pos hsuspended,
      vTaskResume_of_suspended (hpoint.suspended_iff.mpr hsuspended)]
    refine ⟨?_, hlast, hdeadline⟩
    subst hsuspended
    generalize thread.point = point at hpoint ⊢
    generalize other.point = otherPoint at hpoint
    cases hpoint
    exact .same
  · rw [if_neg hsuspended,
      vTaskResume_of_ne (mt hpoint.suspended_iff.mp hsuspended)]
    exact ⟨hpoint, hlast, hdeadline⟩

theorem jobsOf_vTaskResume (other : RunTask.Thread) :
    jobsOf (RunTask.vTaskResume other).history = jobsOf other.history := by
  by_cases hpoint : other.point = .suspended
  · rw [vTaskResume_of_suspended hpoint]
    rfl
  · rw [vTaskResume_of_ne hpoint]

theorem Agrees.vTaskResume {conditions : TaskHandle → Condition}
    (hagrees : Agrees setup state conditions now program)
    (successor : TaskHandle) :
    Agrees setup state
      (Function.update conditions successor
        (if conditions successor = .suspended then .ready
          else conditions successor)) now
      (RunTask.applyEffect program (.resume successor)) where
  ticks := hagrees.ticks
  schedulable := hagrees.schedulable
  jobs entry hentry := by
    change _ = jobsOf (Function.update program.thread successor
      (RunTask.vTaskResume (program.thread successor)) entry).history
    rw [hagrees.jobs entry hentry]
    by_cases heq : entry = successor
    · subst heq
      rw [Function.update_self, jobsOf_vTaskResume]
    · rw [Function.update_of_ne heq]
  thread entry hentry hlives := by
    change ThreadMatches now _ _ (Function.update program.thread successor
      (RunTask.vTaskResume (program.thread successor)) entry)
    by_cases heq : entry = successor
    · subst heq
      rw [Function.update_self] at hlives ⊢
      rw [Function.update_self]
      refine (hagrees.thread entry hentry ?_).vTaskResume
      split at hlives
      · rename_i hsuspended
        rw [hsuspended]
        exact ⟨Condition.noConfusion, Condition.noConfusion⟩
      · exact hlives
    · rw [Function.update_of_ne heq] at hlives ⊢
      rw [Function.update_of_ne heq]
      exact hagrees.thread entry hentry hlives
  monitor hlives := by
    by_cases heq : setup.monitor = successor
    · rw [heq, Function.update_self] at hlives ⊢
      by_cases hsuspended : conditions successor = .suspended
      · have hmonitor := hagrees.monitor (by
          rw [heq, hsuspended]
          exact ⟨Condition.noConfusion, Condition.noConfusion⟩)
        rw [heq, hsuspended] at hmonitor
        cases hmonitor
      · rw [if_neg hsuspended] at hlives ⊢
        rw [← heq] at hlives ⊢
        exact hagrees.monitor hlives
    · rw [Function.update_of_ne heq] at hlives ⊢
      exact hagrees.monitor hlives

theorem Follows.setKernel (hfollows : Follows setup state clock program)
    {kernel : DelayedTasks.State TaskHandle}
    (htracks : Tracks setup.kernel kernel clock) :
    Follows setup { state with kernel := kernel } clock program :=
  ⟨htracks, hfollows.resumed, hfollows.elapsed, hfollows.reachable,
    hfollows.agrees.setKernel kernel⟩

theorem resume_eq (hresumed : clock.resumed = fun _ => false)
    (successor : TaskHandle) :
    (clock.resume successor).condition =
        Function.update clock.condition successor
          (if clock.condition successor = .suspended then .ready
            else clock.condition successor) ∧
      (clock.resume successor).resumed = fun _ => false := by
  rw [Clock.resume, hresumed]
  by_cases hsuspended : clock.condition successor = .suspended
  · rw [if_pos hsuspended, if_pos ⟨hsuspended, rfl⟩]
    refine ⟨rfl, ?_⟩
    rw [Clock.setCondition, hresumed]
    exact Function.update_eq_self ..
  · rw [if_neg hsuspended, if_neg fun h => hsuspended h.1,
      Function.update_eq_self]
    exact ⟨rfl, hresumed⟩

/-- The end of a job, with the next piece of the task. -/
theorem Follows.run_resume (hfollows : Follows setup state clock program)
    (hmem : handle ∈ setup.tasks.handles)
    (hfits : Fits state (.run handle)) {thread : Thread} {effect : Effect}
    (hready : clock.condition handle = .ready)
    (hpoint : (state.thread handle).point = .resume)
    (hsame : (program.thread handle).point = .resume)
    (hrun : runThread handle (setup.tasks.info handle) (tickCount program.now)
      (state.thread handle) = some (thread, effect))
    (hstep : applyEffect setup (state.setThread handle thread) effect =
      some after) :
    ∃ clock program, Follows setup after clock program := by
  obtain ⟨-, hlast, hdeadline⟩ :=
    hfollows.agrees.thread handle hmem (lives_of_ready hready)
  have hjobs := hfollows.agrees.jobs handle hmem
  rw [runThread, hpoint] at hrun
  cases hsuccessor : (setup.tasks.info handle).splittedPtr with
  | none =>
      rw [hsuccessor] at hrun
      cases hrun
      obtain rfl := Option.some.inj hstep
      have hother : RunTask.runThread (setup.tasks.info handle) program.now
          (program.thread handle) =
            some ({ program.thread handle with point := .delayUntil },
              .none) := by
        rw [RunTask.runThread, hsame]
        dsimp only
        rw [hsuccessor]
      exact ⟨clock, _, hfollows.runs hmem hready hother
        ⟨.same, hlast, hdeadline⟩ hjobs⟩
  | some successor =>
      rw [hsuccessor] at hrun
      cases hrun
      obtain ⟨kernel, clock', rfl, hclock, htracks⟩ :=
        tracks_kernel hstep hfollows.tracks hfits
      obtain rfl := Option.some.inj hclock
      have hother : RunTask.runThread (setup.tasks.info handle) program.now
          (program.thread handle) =
            some ({ program.thread handle with
              point := .delayUntil
              history := { (program.thread handle).history with
                resumes := (program.thread handle).history.resumes + 1 } },
              .resume successor) := by
        rw [RunTask.runThread, hsame]
        dsimp only
        rw [hsuccessor]
      have hreach := reachable_run hfollows.reachable hmem hother
      have hthread : ThreadMatches clock.now (clock.condition handle)
          { state.thread handle with point := .delayUntil .before }
          { program.thread handle with
            point := .delayUntil
            history := { (program.thread handle).history with
              resumes := (program.thread handle).history.resumes + 1 } } := by
        rw [hready]
        exact ⟨.same, hlast, hdeadline⟩
      have hupdate := hfollows.agrees.update_same hmem (fun _ => hthread) hjobs
      have hagrees := hupdate.vTaskResume successor
      obtain ⟨hcondition, hresumed⟩ := resume_eq hfollows.resumed successor
      rw [← hcondition, ← (Clock.frame_resume successor clock).now] at hagrees
      have helapsed := hfollows.elapsed.frame (Clock.frame_resume successor clock)
      exact ⟨_, _, htracks, hresumed, helapsed, hreach,
        hagrees.setKernel kernel⟩

/-- `xTaskDelayUntil` has suspended the scheduler. -/
theorem Follows.run_delayUntil (hfollows : Follows setup state clock program)
    (hmem : handle ∈ setup.tasks.handles)
    (hfits : Fits state (.run handle)) {thread : Thread} {effect : Effect}
    (hready : clock.condition handle = .ready)
    (hpoint : (state.thread handle).point = .delayUntil .suspended)
    (hsame : (program.thread handle).point = .delayUntil)
    (hrun : runThread handle (setup.tasks.info handle) (tickCount program.now)
      (state.thread handle) = some (thread, effect))
    (hstep : applyEffect setup (state.setThread handle thread) effect =
      some after) :
    ∃ clock program, Follows setup after clock program := by
  obtain ⟨-, hlast, hdeadline⟩ :=
    hfollows.agrees.thread handle hmem (lives_of_ready hready)
  have hjobs := hfollows.agrees.jobs handle hmem
  rw [runThread, hpoint] at hrun
  cases hrun
  obtain ⟨kernel, clock', rfl, hclock, htracks⟩ :=
    tracks_kernel hstep hfollows.tracks hfits
  obtain ⟨-, ⟨⟩⟩ := Option.ite_none_right_eq_some.mp hclock
  have hother : RunTask.runThread (setup.tasks.info handle) program.now
      (program.thread handle) = some (vTaskDelayUntil
        (setup.tasks.info handle) program.now (program.thread handle),
        .none) := by
    rw [RunTask.runThread, hsame]
  have hmatches : ∀ target : Condition,
      PointMatches clock.now target (.delayUntil .listed)
        (vTaskDelayUntil (setup.tasks.info handle) program.now
          (program.thread handle)).point →
      ThreadMatches clock.now target
        { state.thread handle with
          point := .delayUntil .listed
          lastRequestTime := (xTaskDelayUntil (tickCount program.now)
            (state.thread handle).lastRequestTime
            (setup.tasks.info handle).period).1 }
        (vTaskDelayUntil (setup.tasks.info handle) program.now
          (program.thread handle)) := by
    refine fun target hpoint => ⟨hpoint, ?_, hdeadline⟩
    rw [vTaskDelayUntil, hlast]
  simp only [Clock.delayUntil, Clock.delayUntilWake, ← hfollows.agrees.ticks,
    ← hlast] at htracks
  by_cases hdelays : (xTaskDelayUntil (tickCount program.now)
      (program.thread handle).lastRequestTime
      (setup.tasks.info handle).period).2 = true
  · rw [if_pos hdelays] at htracks
    refine ⟨_, _, hfollows.calls hmem htracks hother (hmatches _ ?_) hjobs⟩
    rw [vTaskDelayUntil, if_pos hdelays]
    exact .asleep rfl
  · rw [if_neg hdelays] at htracks
    refine ⟨_, _, (hfollows.runs hmem hready hother
      (hmatches _ ?_) hjobs).setKernel htracks⟩
    rw [vTaskDelayUntil, if_neg hdelays]
    exact .same

/-- A thread whose task is ready takes a step. -/
theorem Follows.run_ready (hfollows : Follows setup state clock program)
    (hmem : handle ∈ setup.tasks.handles)
    (hfits : Fits state (.run handle)) {thread : Thread} {effect : Effect}
    (hlisted : (state.thread handle).point.isListed = false)
    (hready : clock.condition handle = .ready)
    (hrun : runThread handle (setup.tasks.info handle) state.kernel.xTickCount
      (state.thread handle) = some (thread, effect))
    (hstep : applyEffect setup (state.setThread handle thread) effect =
      some after) :
    ∃ clock program, Follows setup after clock program := by
  obtain ⟨program, hfollows, hsame⟩ := hfollows.goesOn hmem hready
  obtain ⟨-, hlast, hdeadline⟩ :=
    hfollows.agrees.thread handle hmem (lives_of_ready hready)
  have hjobs := hfollows.agrees.jobs handle hmem
  have htick : state.kernel.xTickCount = tickCount program.now := by
    rw [hfollows.agrees.ticks]
    exact hfollows.tracks.lists.tickCount
  rw [htick] at hrun
  by_cases hcomputes : (state.thread handle).point.computes = true
  · obtain ⟨rfl, other, hother, hdone, hthread⟩ :=
      runThread_computes hcomputes hsame hlast hdeadline hjobs hrun
    obtain rfl := Option.some.inj hstep
    rw [hfollows.agrees.ticks] at hthread
    exact ⟨clock, _, hfollows.runs hmem hready hother hthread hdone⟩
  · cases hpoint : (state.thread handle).point with
    | delay phase =>
        rw [hpoint] at hlisted hsame
        rw [runThread, hpoint] at hrun
        cases phase with
        | before =>
            cases hrun
            obtain ⟨kernel, clock', rfl, hclock, htracks⟩ :=
              tracks_kernel hstep hfollows.tracks hfits
            obtain rfl := Option.some.inj hclock
            have hmoved := hfollows.moves (.delay .suspended)
              (congrArg Point.coarse hpoint).symm
            exact ⟨_, program, hmoved.suspendAll htracks⟩
        | suspended =>
            cases hrun
            obtain ⟨kernel, clock', rfl, hclock, htracks⟩ :=
              tracks_kernel hstep hfollows.tracks hfits
            obtain ⟨-, ⟨⟩⟩ := Option.ite_none_right_eq_some.mp hclock
            have hother : RunTask.runThread (setup.tasks.info handle)
                program.now (program.thread handle) =
                  some ({ program.thread handle with
                    point := .delayed (clock.now + msToTicks syncR) },
                    .none) := by
              rw [RunTask.runThread, hsame, ← hfollows.agrees.ticks]
              rfl
            exact ⟨_, _, hfollows.calls hmem htracks hother
              ⟨.asleep rfl, hlast, hdeadline⟩ hjobs⟩
        | listed => cases hlisted
    | suspend =>
        rw [hpoint] at hsame
        rw [runThread, hpoint] at hrun
        cases hrun
        obtain ⟨kernel, clock', rfl, hclock, htracks⟩ :=
          tracks_kernel hstep hfollows.tracks hfits
        obtain ⟨-, ⟨⟩⟩ := Option.ite_none_right_eq_some.mp hclock
        have hother : RunTask.runThread (setup.tasks.info handle) program.now
            (program.thread handle) =
              some ({ program.thread handle with point := .suspended },
                .none) := by
          rw [RunTask.runThread, hsame]
          rfl
        exact ⟨_, _, hfollows.calls hmem htracks hother
          ⟨.suspended, hlast, hdeadline⟩ hjobs⟩
    | failed =>
        rw [hpoint] at hsame
        rw [runThread, hpoint] at hrun
        cases hrun
        obtain rfl := Option.some.inj hstep
        have hother : RunTask.runThread (setup.tasks.info handle) program.now
            (program.thread handle) =
              some ({ program.thread handle with point := .hang },
                .overflow) := by
          rw [RunTask.runThread, hsame]
          rfl
        have hthread : ThreadMatches clock.now (clock.condition handle)
            { state.thread handle with point := .hang }
            { program.thread handle with point := .hang } := by
          rw [hready]
          exact ⟨.same, hlast, hdeadline⟩
        have hagrees :=
          hfollows.agrees.update_same hmem (fun _ => hthread) hjobs
        exact ⟨clock, _, hfollows.tracks, hfollows.resumed, hfollows.elapsed,
          reachable_run hfollows.reachable hmem hother,
          hagrees.ticks, rfl, hagrees.jobs, hagrees.thread, hagrees.monitor⟩
    | hang =>
        rw [runThread, hpoint] at hrun
        cases hrun
    | resume =>
        rw [hpoint] at hsame
        exact hfollows.run_resume hmem hfits hready hpoint hsame hrun hstep
    | delayUntil phase =>
        rw [hpoint] at hlisted hsame
        cases phase with
        | before =>
            rw [runThread, hpoint] at hrun
            cases hrun
            obtain ⟨kernel, clock', rfl, hclock, htracks⟩ :=
              tracks_kernel hstep hfollows.tracks hfits
            obtain rfl := Option.some.inj hclock
            have hmoved := hfollows.moves (.delayUntil .suspended)
              (congrArg Point.coarse hpoint).symm
            exact ⟨_, program, hmoved.suspendAll htracks⟩
        | suspended =>
            exact hfollows.run_delayUntil hmem hfits hready hpoint hsame hrun
              hstep
        | listed => cases hlisted
    | _ =>
        rw [hpoint] at hcomputes
        exact absurd rfl hcomputes

/-- A thread takes a step. -/
theorem Follows.run (hfollows : Follows setup state clock program)
    (hfits : Fits state (.run handle))
    (hstep : step setup state (.run handle) = some after) :
    ∃ clock program, Follows setup after clock program := by
  obtain ⟨⟨hmem, hcan⟩, hmatch⟩ := Option.ite_none_right_eq_some.mp hstep
  split at hmatch
  · cases hmatch
  · rename_i thread effect hrun
    by_cases hlisted : (state.thread handle).point.isListed = true
    · exact hfollows.run_listed hfits hlisted hrun hmatch
    · have hready := hfollows.tracks.stateList_eq_ready.mp
        (hcan.resolve_left hlisted)
      exact hfollows.run_ready hmem hfits (Bool.eq_false_of_not_eq_true hlisted)
        hready hrun hmatch

end PicoSched.Firmware
