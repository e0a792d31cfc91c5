import PicoSched.Runtime.FirmwareThreads

/-!
# The program on the kernel follows the running program

The program on the kernel, with its delays made of several calls and its
wrapping tick count, does what the running program does whose threads sleep
until a tick.  One step is no step of the running program, one step, or as many
ticks as the kernel catches up with.
-/

namespace PicoSched.Firmware

open DelayedTasks RunTask TaskManager

variable {setup : Setup} {state after : State} {clock : Clock TaskHandle}
  {program : RunTask.State} {condition : Condition} {now : ℕ}
  {handle : TaskHandle}

/-! ## Ticks and the monitor -/

/-- A tick is processed, or it is left for the end of the suspension. -/
theorem Follows.tick (hfollows : Follows setup state clock program)
    (hfits : Fits state .tick) (hstep : step setup state .tick = some after) :
    ∃ clock program, Follows setup after clock program := by
  obtain ⟨kernel, clock', rfl, hclock, htracks⟩ :=
    tracks_kernel hstep hfollows.tracks hfits
  have helapsed := hfollows.elapsed.step hclock
  rw [Clock.step] at hclock
  split at hclock
  · obtain rfl := Option.some.inj hclock
    exact ⟨_, _, htracks, hfollows.resumed, helapsed,
      reachable_tick hfollows.reachable,
      (hfollows.agrees.tick.setTicks _).setKernel kernel⟩
  · obtain rfl := Option.some.inj hclock
    exact ⟨_, program, htracks, hfollows.resumed, helapsed,
      hfollows.reachable, (hfollows.agrees.setTicks _).setKernel kernel⟩

section Monitor

variable {conditions : TaskHandle → Condition} {point : MonitorPoint}
  {other : RunTask.MonitorPoint}

theorem Agrees.updateMonitor
    (hagrees : Agrees setup state conditions now program)
    (hmonitor : Lives condition → MonitorMatches now condition point other) :
    Agrees setup { state with monitor := point }
      (Function.update conditions setup.monitor condition) now
      { program with monitor := other } where
  ticks := hagrees.ticks
  schedulable := hagrees.schedulable
  jobs := hagrees.jobs
  thread entry hentry hlives := by
    have hne : entry ≠ setup.monitor := by
      rintro rfl
      exact (List.nodup_cons.mp setup.distinct).1 hentry
    rw [Function.update_of_ne hne] at hlives ⊢
    exact hagrees.thread entry hentry hlives
  monitor hlives := by
    rw [Function.update_self] at hlives ⊢
    exact hmonitor hlives

theorem Agrees.setMonitor (hagrees : Agrees setup state conditions now program)
    (hmonitor : Lives (conditions setup.monitor) →
      MonitorMatches now (conditions setup.monitor) point other) :
    Agrees setup { state with monitor := point } conditions now
      { program with monitor := other } := by
  have hupdate := hagrees.updateMonitor hmonitor
  rwa [Function.update_eq_self] at hupdate

/-- Nothing is said of a task once it is deleted. -/
theorem Agrees.delete (hagrees : Agrees setup state conditions now program)
    (task : TaskHandle) (hdead : ¬ Lives condition) :
    Agrees setup state (Function.update conditions task condition) now
      program where
  ticks := hagrees.ticks
  schedulable := hagrees.schedulable
  jobs := hagrees.jobs
  thread entry hentry hlives := by
    have hne : entry ≠ task := by
      rintro rfl
      rw [Function.update_self] at hlives
      exact hdead hlives
    rw [Function.update_of_ne hne] at hlives ⊢
    exact hagrees.thread entry hentry hlives
  monitor hlives := by
    have hne : setup.monitor ≠ task := by
      rintro rfl
      rw [Function.update_self] at hlives
      exact hdead hlives
    rw [Function.update_of_ne hne] at hlives ⊢
    exact hagrees.monitor hlives

end Monitor

theorem reachable_monitor {tasks : TaskSet} {next : RunTask.State}
    (hreach : (RunTask.machine tasks).Reachable program)
    (hstep : monitorStep tasks program = some next) :
    (RunTask.machine tasks).Reachable next := by
  have hnext : (RunTask.machine tasks).step program .monitor = some next :=
    hstep
  exact .next hreach trivial hnext

/-- `MonitorTask` is ready and stands where it does in the running program, or
it has been woken. -/
theorem Follows.monitor_matches (hfollows : Follows setup state clock program)
    (hready : clock.condition setup.monitor = .ready) :
    MonitorMatches clock.now .ready state.monitor program.monitor := by
  have hmonitor := hfollows.agrees.monitor
  rw [hready] at hmonitor
  exact hmonitor (lives_of_ready rfl)

/-- `MonitorTask` computes the hyperperiod.  A delay of no tick is none. -/
theorem Follows.monitor_entry (hfollows : Follows setup state clock program)
    (hready : clock.condition setup.monitor = .ready)
    (hpoint : state.monitor = .entry) :
    ∃ program, Follows setup
      { state with
        monitor := if (setup.tasks.lcmTicks + 1) % 2 ^ 32 = 0 then .verdict
          else .delay .before } clock program := by
  have hmatches := hfollows.monitor_matches hready
  obtain ⟨htracks, hresumed, helapsed, hreach, hagrees⟩ := hfollows
  rw [hpoint] at hmatches
  generalize hother : program.monitor = other at hmatches
  cases hmatches with
  | awake hdelay => cases hdelay
  | same hsame =>
      obtain rfl := Option.some.inj hsame
      split
      · rename_i hzero
        have hstep : monitorStep setup.tasks program =
            some { program with
              monitor := .delayed
                (delayedUntil program.now (setup.tasks.lcmTicks + 1)) } := by
          rw [monitorStep, hother]
        refine ⟨_, htracks, hresumed, helapsed,
          reachable_monitor hreach hstep,
          hagrees.setMonitor fun _ => ?_⟩
        rw [hready]
        refine .awake rfl ?_
        rw [delayedUntil, hzero, hagrees.ticks, Nat.add_zero]
      · refine ⟨program, htracks, hresumed, helapsed, hreach, ?_⟩
        have hmatches : MonitorMatches clock.now
            (clock.condition setup.monitor) (.delay .before)
            program.monitor := by
          rw [hready, hother]
          exact .same rfl
        exact hagrees.setMonitor fun _ => hmatches

/-- `MonitorTask` starts to delay. -/
theorem Follows.monitor_sleep (hfollows : Follows setup state clock program)
    (hready : clock.condition setup.monitor = .ready)
    (hpoint : state.monitor = .delay .suspended)
    {kernel : DelayedTasks.State TaskHandle}
    (htracks : Tracks setup.kernel kernel (clock.setCondition setup.monitor
      (.asleep (clock.now + (setup.tasks.lcmTicks + 1) % 2 ^ 32)))) :
    ∃ clock program, Follows setup
      { state with monitor := .delay .listed, kernel := kernel } clock
      program := by
  have hmatches := hfollows.monitor_matches hready
  obtain ⟨-, hresumed, helapsed, hreach, hagrees⟩ := hfollows
  rw [hpoint] at hmatches
  generalize hother : program.monitor = other at hmatches
  cases hmatches with
  | awake hdelay => cases hdelay
  | same hsame =>
      obtain rfl := Option.some.inj hsame
      have hstep : monitorStep setup.tasks program =
          some { program with
            monitor := .delayed
              (clock.now + (setup.tasks.lcmTicks + 1) % 2 ^ 32) } := by
        rw [monitorStep, hother, ← hagrees.ticks]
        rfl
      have hasleep : MonitorMatches clock.now
          (.asleep (clock.now + (setup.tasks.lcmTicks + 1) % 2 ^ 32))
          (.delay .listed) (.delayed
            (clock.now + (setup.tasks.lcmTicks + 1) % 2 ^ 32)) := .asleep rfl
      have hmoved := hagrees.updateMonitor fun _ => hasleep
      refine ⟨_, _, htracks, ?_, ⟨helapsed.total, helapsed.pended⟩,
        reachable_monitor hreach hstep, hmoved.setKernel kernel⟩
      rw [Clock.setCondition, hresumed]
      exact Function.update_eq_self ..

theorem MonitorMatches.of_coarse {point point' : MonitorPoint}
    {other : RunTask.MonitorPoint}
    (hpoint : MonitorMatches now condition point other)
    (hsame : point'.coarse = point.coarse) :
    MonitorMatches now condition point' other := by
  cases hpoint with
  | same heq => exact .same (hsame.trans heq)
  | asleep hdelay => exact .asleep (hsame.trans hdelay)
  | awake hdelay hwake => exact .awake (hsame.trans hdelay) hwake

/-- A move of `MonitorTask` that the running program does not see. -/
theorem Follows.monitor_moves (hfollows : Follows setup state clock program)
    (point : MonitorPoint) (hsame : point.coarse = state.monitor.coarse) :
    Follows setup { state with monitor := point } clock program :=
  ⟨hfollows.tracks, hfollows.resumed, hfollows.elapsed, hfollows.reachable,
    hfollows.agrees.setMonitor fun hlives =>
      (hfollows.agrees.monitor hlives).of_coarse hsame⟩

theorem Follows.monitor_delay (hfollows : Follows setup state clock program)
    {phase : Phase} {isRunningOrYielding : Bool}
    (hready : (MonitorPoint.delay phase).isListed = false →
      clock.condition setup.monitor = .ready)
    (hpoint : state.monitor = .delay phase)
    (hfits : state.kernel.xPendedTicks + 1 < 2 ^ 32 ∧
      state.kernel.uxSchedulerSuspended + 1 < 2 ^ 32)
    (hstep : applyEffect setup
      { state with monitor := (runMonitor setup isRunningOrYielding
        { state with monitor := .delay phase }).1 }
      (runMonitor setup isRunningOrYielding
        { state with monitor := .delay phase }).2 = some after) :
    ∃ clock program, Follows setup after clock program := by
  cases phase with
  | before =>
      obtain ⟨kernel, clock', rfl, hclock, htracks⟩ :=
        tracks_kernel hstep hfollows.tracks hfits
      obtain rfl := Option.some.inj hclock
      have hmoved := hfollows.monitor_moves (.delay .suspended)
        (congrArg MonitorPoint.coarse hpoint).symm
      exact ⟨_, program, hmoved.suspendAll htracks⟩
  | suspended =>
      obtain ⟨kernel, clock', rfl, hclock, htracks⟩ :=
        tracks_kernel hstep hfollows.tracks hfits
      obtain ⟨-, ⟨⟩⟩ := Option.ite_none_right_eq_some.mp hclock
      exact hfollows.monitor_sleep (hready rfl) hpoint htracks
  | listed =>
      obtain ⟨kernel, clock', rfl, hclock, htracks⟩ :=
        tracks_kernel hstep hfollows.tracks hfits
      obtain ⟨-, ⟨⟩⟩ := Option.ite_none_right_eq_some.mp hclock
      have hmoved := hfollows.monitor_moves .verdict
        (congrArg MonitorPoint.coarse hpoint).symm
      exact ⟨_, hmoved.resumeAll htracks⟩

/-- The verdict is that of the running program. -/
theorem Follows.monitor_verdict (hfollows : Follows setup state clock program)
    (hready : clock.condition setup.monitor = .ready)
    (hpoint : state.monitor = .verdict) :
    ∃ program, Follows setup
      { state with monitor := .delete state.schedulable 0 } clock program := by
  have hmatches := hfollows.monitor_matches hready
  obtain ⟨htracks, hresumed, helapsed, hreach, hagrees⟩ := hfollows
  rw [hpoint] at hmatches
  generalize hother : program.monitor = other at hmatches
  cases hmatches with
  | same hsame => cases hsame
  | awake hdelay hwake =>
      have hstep : monitorStep setup.tasks program =
          some { program with monitor := .printed program.schedulable } := by
        rw [monitorStep, hother]
        exact if_pos (hagrees.ticks.symm ▸ hwake)
      refine ⟨_, htracks, hresumed, helapsed,
          reachable_monitor hreach hstep,
        hagrees.setMonitor fun _ => ?_⟩
      rw [hready, hagrees.schedulable]
      exact .same rfl

/-- A task is deleted, or `MonitorTask` itself. -/
theorem Follows.monitor_delete (hfollows : Follows setup state clock program)
    (hready : clock.condition setup.monitor = .ready)
    {allTasksSchedulable isRunningOrYielding : Bool} {i : ℕ}
    (hpoint : state.monitor = .delete allTasksSchedulable i) {task : TaskHandle}
    (hfits : state.kernel.xPendedTicks + 1 < 2 ^ 32 ∧
      state.kernel.uxSchedulerSuspended + 1 < 2 ^ 32)
    (hstep : applyEffect setup
      { state with monitor := .delete allTasksSchedulable (i + 1) }
      (.kernel (.delete task isRunningOrYielding)) = some after) :
    ∃ clock program, Follows setup after clock program := by
  have hmatches := hfollows.monitor_matches hready
  obtain ⟨htracks, hresumed, helapsed, hreach, hagrees⟩ := hfollows
  rw [hpoint] at hmatches
  obtain ⟨kernel, clock', rfl, hclock, htracks⟩ :=
    tracks_kernel hstep htracks hfits
  obtain ⟨-, ⟨⟩⟩ := Option.ite_none_right_eq_some.mp hclock
  have hmoved : Agrees setup
      { state with monitor := .delete allTasksSchedulable (i + 1) }
      clock.condition clock.now program := by
    have hmoved : MonitorMatches clock.now (clock.condition setup.monitor)
        (.delete allTasksSchedulable (i + 1)) program.monitor := by
      rw [hready]
      exact hmatches.of_coarse rfl
    exact hagrees.setMonitor fun _ => hmoved
  have hdead : ¬ Lives (if isRunningOrYielding then .deleted else .absent) := by
    cases isRunningOrYielding
    · exact fun hlives => hlives.2 rfl
    · exact fun hlives => hlives.1 rfl
  refine ⟨_, program, htracks, ?_, ⟨helapsed.total, helapsed.pended⟩, hreach,
    (hmoved.delete task hdead).setKernel kernel⟩
  rw [Clock.setCondition, hresumed]
  exact Function.update_eq_self ..

/-- `MonitorTask` takes a step. -/
theorem Follows.monitor (hfollows : Follows setup state clock program)
    {isRunningOrYielding : Bool}
    (hfits : Fits state (.monitor isRunningOrYielding))
    (hstep : step setup state (.monitor isRunningOrYielding) = some after) :
    ∃ clock program, Follows setup after clock program := by
  have heffect : setup.canRun state setup.monitor state.monitor.isListed ∧
      applyEffect setup
        { state with monitor := (runMonitor setup isRunningOrYielding state).1 }
        (runMonitor setup isRunningOrYielding state).2 = some after :=
    Option.ite_none_right_eq_some.mp hstep
  obtain ⟨hcan, heffect⟩ := heffect
  have hready : state.monitor.isListed = false →
      clock.condition setup.monitor = .ready := by
    intro hlisted
    refine hfollows.tracks.stateList_eq_ready.mp (hcan.resolve_left ?_)
    rw [hlisted]
    exact Bool.false_ne_true
  rw [runMonitor] at heffect
  cases hpoint : state.monitor with
  | entry =>
      rw [hpoint] at heffect hready
      obtain rfl := Option.some.inj heffect
      exact ⟨clock, hfollows.monitor_entry (hready rfl) hpoint⟩
  | delay phase =>
      rw [hpoint] at heffect hready
      exact hfollows.monitor_delay hready hpoint hfits heffect
  | verdict =>
      rw [hpoint] at heffect hready
      obtain rfl := Option.some.inj heffect
      exact ⟨clock, hfollows.monitor_verdict (hready rfl) hpoint⟩
  | delete allTasksSchedulable i =>
      rw [hpoint] at heffect hready
      dsimp only at heffect
      split at heffect
      · exact hfollows.monitor_delete (hready rfl) hpoint hfits heffect
      · exact hfollows.monitor_delete (hready rfl) hpoint hfits heffect

/-! ## Runs -/

theorem Follows.step (hfollows : Follows setup state clock program)
    {action : Action} (hfits : Fits state action)
    (hstep : Firmware.step setup state action = some after) :
    ∃ clock program, Follows setup after clock program := by
  cases action with
  | tick => exact hfollows.tick hfits hstep
  | run handle => exact hfollows.run hfits hstep
  | monitor isRunningOrYielding => exact hfollows.monitor hfits hstep

/-- The tasks are created one after the other. -/
theorem tracks_create {kernel : DelayedTasks.Setup TaskHandle}
    (handles : List TaskHandle) (hdistinct : handles.Nodup)
    {state : DelayedTasks.State TaskHandle}
    (htracks : Tracks kernel state clock)
    (habsent : ∀ handle ∈ handles, clock.condition handle = .absent)
    (hresumed : clock.resumed = fun _ => false) (helapsed : clock.Elapsed 0) :
    ∃ clock', Tracks kernel (handles.foldl (fun state handle =>
        prvAddTaskToReadyList kernel.priority handle state) state) clock' ∧
      clock'.Elapsed 0 ∧ clock'.resumed = (fun _ => false) ∧
      ∀ handle, clock'.condition handle =
        if handle ∈ handles then .ready else clock.condition handle := by
  induction handles generalizing clock state with
  | nil => exact ⟨clock, htracks, helapsed, hresumed, fun _ => rfl⟩
  | cons head tail ih =>
      obtain ⟨hhead, htail⟩ := List.nodup_cons.mp hdistinct
      have hcreated := htracks.create (habsent head (List.mem_cons_self ..))
      have habsent' : ∀ handle ∈ tail,
          (clock.setCondition head .ready).condition handle = .absent := by
        intro handle hmem
        refine (Function.update_of_ne ?_ _ _).trans
          (habsent handle (List.mem_cons_of_mem _ hmem))
        rintro rfl
        exact hhead hmem
      have hresumed' : (clock.setCondition head .ready).resumed =
          fun _ => false := by
        rw [Clock.setCondition, hresumed]
        exact Function.update_eq_self ..
      obtain ⟨clock', htracks', helapsed', hlast, hcondition⟩ :=
        ih htail hcreated habsent' hresumed'
          ⟨helapsed.total, helapsed.pended⟩
      refine ⟨clock', htracks', helapsed', hlast, fun handle => ?_⟩
      rw [hcondition]
      change (if _ then _ else Function.update clock.condition head _ handle) = _
      by_cases heq : handle = head
      · subst heq
        rw [Function.update_self, ite_self, if_pos (List.mem_cons_self ..)]
      · rw [Function.update_of_ne heq]
        simp only [List.mem_cons, heq, false_or]

theorem follows_start (setup : Setup) :
    ∃ clock, Follows setup (machine setup).start clock
      (RunTask.machine setup.tasks).start := by
  obtain ⟨clock, htracks, helapsed, hresumed, hcondition⟩ :=
    tracks_create (setup.monitor :: setup.tasks.handles) setup.distinct
      (tracks_start setup.kernel) (fun _ _ => rfl) rfl ⟨rfl, fun _ => rfl⟩
  have hnow : 0 = clock.now :=
    (Nat.eq_zero_of_add_eq_zero_right helapsed.total).symm
  refine ⟨clock, htracks, hresumed, helapsed, .start, hnow, rfl,
    fun _ _ => rfl, ?_, ?_⟩
  · intro handle hmem _
    rw [hcondition, if_pos (List.mem_cons_of_mem _ hmem)]
    exact ⟨.same, rfl, rfl⟩
  · intro _
    rw [hcondition, if_pos (List.mem_cons_self ..)]
    exact .same rfl

/-- The program does in every run on the kernel what it does when its threads
sleep until a tick: no job is started before its release, none is skipped, and
the verdict is the same. -/
theorem follows_of_reaches (hreach : (machine setup).Reaches Fits state) :
    ∃ clock program, Follows setup state clock program := by
  refine hreach.invariant
    (fun state => ∃ clock program, Follows setup state clock program) ?_ ?_
  · obtain ⟨clock, hfollows⟩ := follows_start setup
    exact ⟨clock, _, hfollows⟩
  · rintro state action after - hfits hstep ⟨clock, program, hfollows⟩
    exact hfollows.step hfits hstep

/-- The two pieces of a task, with the monitor beside them. -/
def splitPairOnKernel : Setup where
  tasks := splitPair 1 1 3
  kernel := samePriority TaskHandle
  monitor := 2
  myPtr := [some 0, some 1]
  distinct := by decide

end PicoSched.Firmware
