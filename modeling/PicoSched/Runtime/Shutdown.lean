import PicoSched.Runtime.Firmware

/-!
# The end of the run

The loop at the end of `MonitorTask` deletes the tasks of `task_list`.  A NULL
handle stands for the calling task, so at the first entry without a task the
monitor deletes itself and the tasks behind that entry go on.
-/

namespace PicoSched.Firmware

open DelayedTasks RunTask TaskManager Transition

variable {setup : Setup} {state after : State} {clock clock' : Clock TaskHandle}
  {program : RunTask.State} {handle : TaskHandle}

/-- The task that call `i` of `vTaskDelete` is about. -/
def Setup.target (setup : Setup) (i : ℕ) : TaskHandle :=
  ((setup.myPtr[i]?).join).getD setup.monitor

/-- The calls of `vTaskDelete` so far. -/
def MonitorPoint.deletions : MonitorPoint → ℕ
  | .delete _ i => i
  | _ => 0

/-- The task is in no list, or it is left to the idle task. -/
def Deleted (handle : TaskHandle) (kernel : DelayedTasks.State TaskHandle) :
    Prop :=
  kernel.stateList handle = none ∨
    kernel.stateList handle = some .waitingTermination

instance (handle : TaskHandle) (kernel : DelayedTasks.State TaskHandle) :
    Decidable (Deleted handle kernel) :=
  inferInstanceAs (Decidable (_ ∨ _))

structure Shutdown (setup : Setup) (state : State) : Prop where
  /-- A task is deleted once the loop has come to it. -/
  deleted : ∀ handle ∈ setup.monitor :: setup.tasks.handles,
    Deleted handle state.kernel ↔
      ∃ i < state.monitor.deletions, setup.target i = handle
  /-- The loop does not go on behind the first call for the monitor. -/
  stops : ∀ i, i + 1 < state.monitor.deletions →
    setup.target i ≠ setup.monitor

/-! ## Deleted tasks -/

theorem deleted_iff {kernel : DelayedTasks.State TaskHandle}
    (htracks : Tracks setup.kernel kernel clock) (handle : TaskHandle) :
    Deleted handle kernel ↔ ¬ Lives (clock.condition handle) := by
  have hlists := htracks.lists
  have hne := hlists.delayed_ne .waitingTermination (by simp [IsDelayedList])
  rw [Deleted, hlists.stateList, Lives]
  cases clock.condition handle with
  | asleep wake =>
      refine iff_of_false ?_ (by simp)
      rintro (heq | heq)
      · cases heq
      · have hlist := Option.some.inj heq
        split at hlist
        · exact hne.1 hlist.symm
        · exact hne.2 hlist.symm
  | _ => simp [place]

theorem lives_advance (clock : Clock TaskHandle) (ticks : ℕ) :
    Lives ((Clock.advance^[ticks] clock).condition handle) ↔
      Lives (clock.condition handle) := by
  induction ticks generalizing clock with
  | zero => exact Iff.rfl
  | succ ticks ih =>
      rw [Function.iterate_succ_apply]
      exact (ih clock.advance).trans (lives_tick _ _)

theorem lives_resumeAll (hresumed : clock.resumed = fun _ => false) :
    Lives (clock.resumeAll.condition handle) ↔
      Lives (clock.condition handle) := by
  rw [Clock.resumeAll]
  split
  · refine (lives_advance { clock.release with suspensions := 0 } _).trans ?_
    rw [Clock.release, hresumed]
    rfl
  · exact Iff.rfl

theorem lives_setCondition {condition : Condition} (task : TaskHandle)
    (hsame : Lives condition ↔ Lives (clock.condition task)) :
    Lives ((clock.setCondition task condition).condition handle) ↔
      Lives (clock.condition handle) := by
  change Lives (Function.update clock.condition task condition handle) ↔ _
  by_cases heq : handle = task
  · subst heq
    rwa [Function.update_self]
  · rw [Function.update_of_ne heq]

theorem lives_asleep {wake : ℕ} : Lives (.asleep wake) :=
  ⟨Condition.noConfusion, Condition.noConfusion⟩

theorem lives_suspended : Lives .suspended :=
  ⟨Condition.noConfusion, Condition.noConfusion⟩

theorem lives_resume (task : TaskHandle) :
    Lives ((clock.resume task).condition handle) ↔
      Lives (clock.condition handle) := by
  rw [Clock.resume]
  split
  · rename_i hsuspended
    exact lives_setCondition task (iff_of_true (lives_of_ready rfl)
      (by rw [hsuspended.1]; exact lives_suspended))
  · exact Iff.rfl

/-- Creations and deletions apart, a step of the kernel deletes no task and
brings none back. -/
theorem lives_step {action : DelayedTasks.Action TaskHandle}
    (hstep : clock.step action = some clock')
    (hresumed : clock.resumed = fun _ => false)
    (hcreate : ∀ task, action ≠ .create task)
    (hdelete : ∀ task isRunningOrYielding,
      action ≠ .delete task isRunningOrYielding)
    (hsuspend : ∀ task, action = .suspend task →
      Lives (clock.condition task)) :
    Lives (clock'.condition handle) ↔ Lives (clock.condition handle) := by
  cases action with
  | create task => exact absurd rfl (hcreate task)
  | delete task isRunningOrYielding => exact absurd rfl (hdelete task _)
  | tick =>
      rw [Clock.step] at hstep
      split at hstep
      · obtain rfl := Option.some.inj hstep
        exact lives_tick _ _
      · obtain rfl := Option.some.inj hstep
        exact Iff.rfl
  | suspendAll =>
      obtain rfl := Option.some.inj hstep
      exact Iff.rfl
  | resumeAll =>
      obtain ⟨-, ⟨⟩⟩ := Option.ite_none_right_eq_some.mp hstep
      exact lives_resumeAll hresumed
  | delay task ticksToDelay =>
      obtain ⟨⟨hcalls, -⟩, ⟨⟩⟩ := Option.ite_none_right_eq_some.mp hstep
      exact lives_setCondition task (iff_of_true lives_asleep
        (lives_of_ready hcalls.1))
  | delayUntil task previousWakeTime timeIncrement =>
      obtain ⟨hcalls, ⟨⟩⟩ := Option.ite_none_right_eq_some.mp hstep
      rw [Clock.delayUntil]
      split
      · exact lives_setCondition task (iff_of_true lives_asleep
          (lives_of_ready hcalls.1))
      · exact Iff.rfl
  | block task =>
      obtain ⟨hcalls, ⟨⟩⟩ := Option.ite_none_right_eq_some.mp hstep
      exact lives_setCondition task (iff_of_true lives_suspended
        (lives_of_ready hcalls.1))
  | suspend task =>
      obtain ⟨-, ⟨⟩⟩ := Option.ite_none_right_eq_some.mp hstep
      exact lives_setCondition task (iff_of_true lives_suspended
        (hsuspend task rfl))
  | resume task =>
      obtain rfl := Option.some.inj hstep
      exact lives_resume task
  | resumeFromISR task =>
      obtain rfl := Option.some.inj hstep
      rw [Clock.resumeFromISR]
      split
      · exact lives_resume task
      · split <;> exact Iff.rfl
  | abortDelay task =>
      obtain ⟨-, ⟨⟩⟩ := Option.ite_none_right_eq_some.mp hstep
      rw [Clock.abortDelay]
      split
      · rename_i hasleep
        exact lives_setCondition task (iff_of_true (lives_of_ready rfl)
          (by rw [hasleep]; exact lives_asleep))
      · exact Iff.rfl

/-! ## The calls of the threads -/

/-- A thread neither creates nor deletes a task, and suspends only its own. -/
theorem runThread_calls {task : TaskInfo} {tick : ℕ} {thread thread' : Thread}
    {action : DelayedTasks.Action TaskHandle}
    (hrun : runThread handle task tick thread =
      some (thread', .kernel action)) :
    (∀ other, action ≠ .create other) ∧
      (∀ other isRunningOrYielding,
        action ≠ .delete other isRunningOrYielding) ∧
      ∀ other, action = .suspend other →
        other = handle ∧ thread.point.isListed = false := by
  rw [runThread] at hrun
  cases hpoint : thread.point with
  | delay phase | delayUntil phase =>
      rw [hpoint] at hrun
      cases phase <;> cases hrun <;> simp
  | suspend =>
      rw [hpoint] at hrun
      cases hrun
      simp [Point.isListed]
  | resume =>
      rw [hpoint] at hrun
      cases hptr : task.splittedPtr with
      | none =>
          rw [hptr] at hrun
          cases hrun
      | some successor =>
          rw [hptr] at hrun
          cases hrun
          simp
  | spin _ _ | recheck =>
      rw [hpoint] at hrun
      dsimp only at hrun
      split at hrun <;> cases hrun
  | _ =>
      rw [hpoint] at hrun
      cases hrun

/-! ## The loop -/

/-- The call of `vTaskDelete` in the loop. -/
theorem runMonitor_delete {isRunningOrYielding allTasksSchedulable : Bool}
    {i : ℕ} (hpoint : state.monitor = .delete allTasksSchedulable i) :
    ∃ isRunningOrYielding', runMonitor setup isRunningOrYielding state =
      (.delete allTasksSchedulable (i + 1),
        .kernel (.delete (setup.target i) isRunningOrYielding')) := by
  rw [runMonitor, hpoint, Setup.target]
  dsimp only
  cases setup.myPtr[i]? with
  | none => exact ⟨true, rfl⟩
  | some entry =>
      cases entry with
      | none => exact ⟨true, rfl⟩
      | some handle => exact ⟨isRunningOrYielding, rfl⟩

theorem Shutdown.of_same (hshutdown : Shutdown setup state)
    (hmonitor : after.monitor.deletions = state.monitor.deletions)
    (hsame : ∀ handle, Deleted handle after.kernel ↔
      Deleted handle state.kernel) : Shutdown setup after where
  deleted handle hmem := by
    rw [hsame, hmonitor]
    exact hshutdown.deleted handle hmem
  stops i hlt := hshutdown.stops i (by rwa [hmonitor] at hlt)

theorem Shutdown.run (hfollows : Follows setup state clock program)
    (hshutdown : Shutdown setup state) (hfits : Fits state (.run handle))
    (hstep : Firmware.step setup state (.run handle) = some after) :
    Shutdown setup after := by
  obtain ⟨⟨hmem, hcan⟩, hmatch⟩ := Option.ite_none_right_eq_some.mp hstep
  split at hmatch
  · cases hmatch
  · rename_i thread effect hrun
    cases effect with
    | none =>
        obtain rfl := Option.some.inj hmatch
        exact hshutdown.of_same rfl fun _ => Iff.rfl
    | overflow =>
        obtain rfl := Option.some.inj hmatch
        exact hshutdown.of_same rfl fun _ => Iff.rfl
    | kernel action =>
        obtain ⟨hcreate, hdelete, hsuspend⟩ := runThread_calls hrun
        obtain ⟨kernel, clock', rfl, hclock, htracks⟩ :=
          tracks_kernel hmatch hfollows.tracks hfits
        refine hshutdown.of_same rfl fun other => ?_
        rw [deleted_iff htracks, deleted_iff hfollows.tracks,
          lives_step hclock hfollows.resumed hcreate hdelete ?_]
        intro task htask
        obtain ⟨rfl, hlisted⟩ := hsuspend task htask
        refine lives_of_ready (hfollows.tracks.stateList_eq_ready.mp
          (hcan.resolve_left ?_))
        rw [hlisted]
        exact Bool.false_ne_true

theorem Shutdown.delete (hfollows : Follows setup state clock program)
    (hshutdown : Shutdown setup state)
    (hready : clock.condition setup.monitor = .ready)
    {allTasksSchedulable isRunningOrYielding : Bool} {i : ℕ}
    (hpoint : state.monitor = .delete allTasksSchedulable i)
    (hfits : state.kernel.xPendedTicks + 1 < 2 ^ 32 ∧
      state.kernel.uxSchedulerSuspended + 1 < 2 ^ 32)
    (hstep : applyEffect setup
      { state with monitor := .delete allTasksSchedulable (i + 1) }
      (.kernel (.delete (setup.target i) isRunningOrYielding)) = some after) :
    Shutdown setup after := by
  have hdeletions : state.monitor.deletions = i := by rw [hpoint]; rfl
  have hfirst : ∀ j < i, setup.target j ≠ setup.monitor := by
    intro j hlt htarget
    have hdeleted := (hshutdown.deleted setup.monitor (List.mem_cons_self ..)).mpr
      ⟨j, by rwa [hdeletions], htarget⟩
    exact (deleted_iff hfollows.tracks _).mp hdeleted (lives_of_ready hready)
  obtain ⟨kernel, clock', rfl, hclock, htracks⟩ :=
    tracks_kernel hstep hfollows.tracks hfits
  obtain ⟨-, ⟨⟩⟩ := Option.ite_none_right_eq_some.mp hclock
  have hdead : ¬ Lives (if isRunningOrYielding then .deleted else .absent) := by
    cases isRunningOrYielding
    · exact fun hlives => hlives.2 rfl
    · exact fun hlives => hlives.1 rfl
  constructor
  · intro handle hmem
    have hbefore := hshutdown.deleted handle hmem
    rw [hdeletions, deleted_iff hfollows.tracks] at hbefore
    change Deleted handle kernel ↔ ∃ j < i + 1, setup.target j = handle
    rw [deleted_iff htracks]
    change ¬ Lives (Function.update clock.condition (setup.target i) _ handle) ↔ _
    by_cases heq : handle = setup.target i
    · subst heq
      rw [Function.update_self]
      exact iff_of_true hdead ⟨i, Nat.lt_succ_self i, rfl⟩
    · rw [Function.update_of_ne heq, hbefore]
      constructor
      · rintro ⟨j, hlt, htarget⟩
        exact ⟨j, Nat.lt_succ_of_lt hlt, htarget⟩
      · rintro ⟨j, hlt, htarget⟩
        refine ⟨j, lt_of_le_of_ne (Nat.le_of_lt_succ hlt) ?_, htarget⟩
        rintro rfl
        exact heq htarget.symm
  · exact fun j hlt => hfirst j (Nat.lt_of_succ_lt_succ hlt)

theorem Shutdown.monitor (hfollows : Follows setup state clock program)
    (hshutdown : Shutdown setup state) {isRunningOrYielding : Bool}
    (hfits : Fits state (.monitor isRunningOrYielding))
    (hstep : Firmware.step setup state (.monitor isRunningOrYielding) =
      some after) : Shutdown setup after := by
  have heffect : setup.canRun state setup.monitor state.monitor.isListed ∧
      applyEffect setup
        { state with monitor := (runMonitor setup isRunningOrYielding state).1 }
        (runMonitor setup isRunningOrYielding state).2 = some after :=
    Option.ite_none_right_eq_some.mp hstep
  obtain ⟨hcan, heffect⟩ := heffect
  have hquiet : ∀ {point : MonitorPoint}
      {action : DelayedTasks.Action TaskHandle},
      point.deletions = state.monitor.deletions →
      applyEffect setup { state with monitor := point } (.kernel action) =
        some after →
      (∀ task, action ≠ .create task) →
      (∀ task isRunningOrYielding, action ≠ .delete task isRunningOrYielding) →
      (∀ task, action ≠ .suspend task) → Shutdown setup after := by
    intro point action hpoint heffect hcreate hdelete hsuspend
    obtain ⟨kernel, clock', rfl, hclock, htracks⟩ :=
      tracks_kernel heffect hfollows.tracks hfits
    refine hshutdown.of_same hpoint fun other => ?_
    rw [deleted_iff htracks, deleted_iff hfollows.tracks,
      lives_step hclock hfollows.resumed hcreate hdelete
        fun task heq => absurd heq (hsuspend task)]
  cases hpoint : state.monitor with
  | entry =>
      rw [runMonitor, hpoint] at heffect
      obtain rfl := Option.some.inj heffect
      refine hshutdown.of_same ?_ fun _ => Iff.rfl
      rw [hpoint]
      dsimp only
      split <;> rfl
  | delay phase =>
      rw [runMonitor, hpoint] at heffect
      cases phase with
      | before | suspended | listed =>
          exact hquiet (by rw [hpoint]; rfl) heffect (by simp) (by simp) (by simp)
  | verdict =>
      rw [runMonitor, hpoint] at heffect
      obtain rfl := Option.some.inj heffect
      exact hshutdown.of_same (by rw [hpoint]; rfl) fun _ => Iff.rfl
  | delete allTasksSchedulable i =>
      obtain ⟨isRunningOrYielding', hrun⟩ := runMonitor_delete hpoint
      rw [hrun] at heffect
      refine Shutdown.delete hfollows hshutdown
        (hfollows.tracks.stateList_eq_ready.mp (hcan.resolve_left ?_)) hpoint
        hfits heffect
      rw [hpoint]
      exact Bool.false_ne_true

/-! ## Runs -/

theorem shutdown_start (setup : Setup) :
    Shutdown setup (machine setup).start := by
  obtain ⟨clock, htracks, -, -, hcondition⟩ :=
    tracks_create (setup.monitor :: setup.tasks.handles) setup.distinct
      (tracks_start setup.kernel) (fun _ _ => rfl) rfl ⟨rfl, fun _ => rfl⟩
  constructor
  · intro handle hmem
    refine iff_of_false ?_ (fun hdeleted => ?_)
    · refine mt (deleted_iff htracks handle).mp (not_not.mpr ?_)
      rw [hcondition, if_pos hmem]
      exact lives_of_ready rfl
    · obtain ⟨i, hlt, -⟩ := hdeleted
      exact absurd hlt (Nat.not_lt_zero i)
  · exact fun i hlt => absurd hlt (Nat.not_lt_zero _)

/-- In every run the deleted tasks are those that the loop of `MonitorTask` has
come to, and the loop ends at the first entry without a task. -/
theorem shutdown_of_reaches (hreach : (machine setup).Reaches Fits state) :
    Shutdown setup state := by
  have hboth : (∃ clock program, Follows setup state clock program) ∧
      Shutdown setup state := by
    refine hreach.invariant (fun state =>
      (∃ clock program, Follows setup state clock program) ∧
        Shutdown setup state) ?_ ?_
    · obtain ⟨clock, hfollows⟩ := follows_start setup
      exact ⟨⟨clock, _, hfollows⟩, shutdown_start setup⟩
    · rintro state action after - hfits hstep
        ⟨⟨clock, program, hfollows⟩, hshutdown⟩
      refine ⟨hfollows.step hfits hstep, ?_⟩
      cases action with
      | run handle => exact Shutdown.run hfollows hshutdown hfits hstep
      | monitor isRunningOrYielding =>
          exact Shutdown.monitor hfollows hshutdown hfits hstep
      | tick =>
          obtain ⟨kernel, clock', rfl, hclock, htracks⟩ :=
            tracks_kernel hstep hfollows.tracks hfits
          refine hshutdown.of_same rfl fun other => ?_
          rw [deleted_iff htracks, deleted_iff hfollows.tracks,
            lives_step hclock hfollows.resumed (by simp) (by simp) (by simp)]
  exact hboth.2

/-- A task behind the first entry without a task is never deleted. -/
theorem not_deleted_of_null (hreach : (machine setup).Reaches Fits state)
    {first : ℕ} (hnull : setup.target first = setup.monitor)
    (hmem : handle ∈ setup.tasks.handles)
    (hbehind : ∀ i < first, setup.target i ≠ handle) :
    ¬ Deleted handle state.kernel := by
  obtain ⟨hdeleted, hstops⟩ := shutdown_of_reaches hreach
  rw [hdeleted handle (List.mem_cons_of_mem _ hmem)]
  rintro ⟨i, hlt, htarget⟩
  have hne : i ≠ first := by
    rintro rfl
    have heq : setup.monitor = handle := hnull.symm.trans htarget
    exact (List.nodup_cons.mp setup.distinct).1 (heq ▸ hmem)
  rcases Nat.lt_or_gt_of_ne hne with hbefore | hafter
  · exact hbehind i hbefore htarget
  · exact hstops first (by omega) hnull

/-- The second entry of `task_list` has no task. -/
def withNullEntry : Setup :=
  { splitPairOnKernel with myPtr := [some 0, none, some 1] }

def shutdownRun : List Action :=
  [.monitor false, .monitor false, .monitor false, .monitor false, .tick, .tick,
    .tick, .tick, .monitor false, .monitor false, .monitor false]

/-- The body is deleted and so is the monitor, but not the tail. -/
theorem withNullEntry_not_deleted : ∃ state : State,
    state.monitor = .delete true 2 ∧ Deleted 0 state.kernel ∧
      Deleted 2 state.kernel ∧ ¬ Deleted 1 state.kernel := by
  have hexec : ((machine withNullEntry).exec Fits shutdownRun
      (machine withNullEntry).start).any (fun state =>
        decide (state.monitor = .delete true 2 ∧ Deleted 0 state.kernel ∧
          Deleted 2 state.kernel)) = true := by
    decide
  have hnull : withNullEntry.target 1 = withNullEntry.monitor := rfl
  obtain ⟨state, hreach, hfinal⟩ := Machine.exists_reaches_of_exec _ _ hexec
  obtain ⟨hmonitor, hbody, hself⟩ := of_decide_eq_true hfinal
  exact ⟨state, hmonitor, hbody, hself,
    not_deleted_of_null hreach hnull (by decide) (by decide)⟩

end PicoSched.Firmware
