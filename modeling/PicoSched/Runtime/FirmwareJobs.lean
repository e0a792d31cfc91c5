import PicoSched.Runtime.CreatedTasks
import PicoSched.Runtime.Precedence
import PicoSched.Runtime.Shutdown
import PicoSched.Runtime.Verdict

/-!
# The jobs on the kernel

The order of the pieces, the times of the jobs and the verdict of `MonitorTask`
in the runs on the kernel.  They are those of the running program that a run
follows, since its threads do the same jobs; where ticks are compared, the tick
count must not have wrapped.
-/

namespace PicoSched.Firmware

open DelayedTasks RunTask TaskManager Transition

variable {setup : Setup} {state : State} {clock : Clock TaskHandle}
  {program : RunTask.State} {handle earlier later first : TaskHandle}
  {pieces : List TaskHandle} {start n : ℕ}

/-! ## The running program -/

/-- The running program has come to no tick that has not occurred. -/
theorem Follows.now_le (hfollows : Follows setup state clock program) :
    program.now ≤ state.ticks := by
  rw [hfollows.agrees.ticks, ← hfollows.elapsed.total]
  exact Nat.le_add_right _ _

theorem Follows.tickCount_eq (hfollows : Follows setup state clock program)
    (hticks : state.ticks < 2 ^ 32) :
    state.kernel.xTickCount = program.now := by
  rw [hfollows.tracks.lists.tickCount, ← hfollows.agrees.ticks]
  exact Nat.mod_eq_of_lt (hfollows.now_le.trans_lt hticks)

theorem Follows.length_jobs (hfollows : Follows setup state clock program)
    (hmem : handle ∈ setup.tasks.handles) :
    (state.thread handle).jobs.entered.length =
        (program.thread handle).history.entered.length ∧
      (state.thread handle).jobs.finished.length =
        (program.thread handle).history.finished.length := by
  rw [hfollows.agrees.jobs handle hmem]
  exact ⟨List.length_map _, List.length_map _⟩

/-- Tick counts that have not wrapped are ticks. -/
theorem Follows.jobs_eq (hfollows : Follows setup state clock program)
    (hticks : state.ticks < 2 ^ 32) (hmem : handle ∈ setup.tasks.handles) :
    (state.thread handle).jobs =
      { start := (program.thread handle).history.start
        entered := (program.thread handle).history.entered
        finished := (program.thread handle).history.finished } := by
  have hreach := hfollows.reachable
  have hnow := hfollows.now_le.trans_lt hticks
  have hsame : ∀ tick ≤ program.now, tickCount tick = tick :=
    fun tick hle => Nat.mod_eq_of_lt (hle.trans_lt hnow)
  have hticks : ∀ {ticks : List ℕ}, (∀ tick ∈ ticks, tick ≤ program.now) →
      ticks.map tickCount = ticks := fun hle =>
    (List.map_congr_left fun tick htick => hsame tick (hle tick htick)).trans
      (List.map_id _)
  have hstart : (program.thread handle).history.start.map tickCount =
      (program.thread handle).history.start := by
    cases hcase : (program.thread handle).history.start with
    | none => rfl
    | some start =>
        exact congrArg some
          (hsame start ((onClock hreach handle).start_le start hcase))
  rw [hfollows.agrees.jobs handle hmem, jobsOf, hstart,
    hticks (entered_le_now hreach handle),
    hticks (finished_le_now hreach handle)]

/-! ## The order of the pieces -/

/-- `later` starts a job only when `earlier` has completed the job of the same
number. -/
structure InOrder (state : State) (earlier later : TaskHandle) : Prop where
  counts : (state.thread later).jobs.entered.length ≤
    (state.thread earlier).jobs.finished.length
  ticks : state.ticks < 2 ^ 32 → ∀ n done start : ℕ,
    (state.thread earlier).jobs.finished[n]? = some done →
      (state.thread later).jobs.entered[n]? = some start → done ≤ start

theorem Follows.inOrder (hfollows : Follows setup state clock program)
    (hearlier : earlier ∈ setup.tasks.handles)
    (hlater : later ∈ setup.tasks.handles)
    (hafter : StartsAfter setup.tasks program earlier later) :
    InOrder state earlier later where
  counts := by
    rw [(hfollows.length_jobs hlater).1, (hfollows.length_jobs hearlier).2]
    exact hafter.counts
  ticks hticks := by
    rw [hfollows.jobs_eq hticks hearlier, hfollows.jobs_eq hticks hlater]
    exact hafter.ticks

/-- On the kernel, too, the pieces of a task start their jobs one after the
other. -/
theorem pairwise_inOrder (hreach : (machine setup).Reaches Fits state)
    (hchain : setup.tasks.Chain first pieces) :
    (first :: pieces).Pairwise (InOrder state) := by
  obtain ⟨clock, program, hfollows⟩ := follows_of_reaches hreach
  refine (hchain.pairwise_startsAfter hfollows.reachable).imp_of_mem ?_
  intro earlier later hearlier hlater
  exact hfollows.inOrder (hchain.mem_handles _ hearlier)
    (hchain.mem_handles _ hlater)

/-! ## The times of the jobs -/

/-- Job `n` was entered and finished in period `n` after the start, and ran for
its `Runtime` ticks. -/
def RanInPeriod (task : TaskInfo) (jobs : Jobs) (start n : ℕ) : Prop :=
  ∃ first last, jobs.entered[n]? = some first ∧
    jobs.finished[n]? = some last ∧ start + n * task.period ≤ first ∧
    first + task.runtime ≤ last ∧ last ≤ start + (n + 1) * task.period

/-- Every job that passes the last check of `Periodic_Job` has run in its own
period, whatever ticks and other threads come between. -/
theorem ranInPeriod (hreach : (machine setup).Reaches Fits state)
    (hticks : state.ticks < 2 ^ 32) (hmem : handle ∈ setup.tasks.handles)
    (hstart : (state.thread handle).jobs.start = some start)
    (hfinished : n < (state.thread handle).jobs.finished.length)
    (hwrap : start + n * (setup.tasks.info handle).period < 2 ^ 32) :
    RanInPeriod (setup.tasks.info handle) (state.thread handle).jobs start
      n := by
  obtain ⟨clock, program, hfollows⟩ := follows_of_reaches hreach
  rw [hfollows.jobs_eq hticks hmem] at hstart hfinished ⊢
  have hnow := hfollows.now_le.trans_lt hticks
  obtain ⟨first, last, hfirst, hlast, hexecuted, hend⟩ :=
    met_of_finished hfollows.reachable handle hnow hstart hfinished
  have hbegin := (released hfollows.reachable handle).entered hnow start hstart n
    first hfirst hwrap
  exact ⟨first, last, hfirst, hlast, hbegin, hexecuted, hend⟩

/-- Both pieces of the task do their first job, and `MonitorTask` wakes up for
the verdict.  The first tick comes while the scheduler is suspended. -/
def firstPeriod : List Action :=
  [.run 0, .run 1, .monitor false, .run 0, .run 0, .run 0, .run 1, .run 1,
    .run 1, .monitor false, .tick, .monitor false, .monitor false, .run 0,
    .run 1, .run 1, .run 0, .run 0, .tick, .run 0, .run 0, .run 0, .run 0,
    .run 1, .run 1, .tick, .run 1, .run 1, .run 1, .tick]

theorem exists_firstPeriod : ∃ state,
    (machine splitPairOnKernel).Reaches Fits state ∧
      (state.thread 0).jobs = ⟨some 0, [1], [2]⟩ ∧
      (state.thread 1).jobs = ⟨some 0, [2], [3]⟩ ∧ state.ticks = 4 ∧
      state.monitor = .verdict ∧ state.schedulable = true := by
  have hexec : ((machine splitPairOnKernel).exec Fits firstPeriod
      (machine splitPairOnKernel).start).any (fun state =>
        decide ((state.thread 0).jobs = ⟨some 0, [1], [2]⟩ ∧
          (state.thread 1).jobs = ⟨some 0, [2], [3]⟩ ∧ state.ticks = 4 ∧
          state.monitor = .verdict ∧ state.schedulable = true)) = true := by
    decide +kernel
  obtain ⟨state, hreach, hfinal⟩ := Machine.exists_reaches_of_exec _ _ hexec
  exact ⟨state, hreach, of_decide_eq_true hfinal⟩

/-- The tail has run behind the body, and still in its period. -/
theorem splitPairOnKernel_ranInPeriod : ∃ state : State,
    (state.thread 1).jobs = ⟨some 0, [2], [3]⟩ ∧
      RanInPeriod (splitPairOnKernel.tasks.info 1) (state.thread 1).jobs 0
        0 := by
  obtain ⟨state, hreach, -, hjobs, hticks, -⟩ := exists_firstPeriod
  refine ⟨state, hjobs, ranInPeriod hreach ?_ (by decide) ?_ ?_ (by decide)⟩
  · rw [hticks]
    norm_num
  · rw [hjobs]
  · rw [hjobs]
    exact Nat.zero_lt_one

/-! ## The verdict -/

/-- The end of the first period whose job has not passed the last check. -/
def Thread.nextDeadline (task : TaskInfo) (thread : Thread) : ℕ :=
  thread.lastRequestTime +
    (if thread.point.coarse.served then 2 else 1) * task.period

/-- Every thread that has let its next deadline pass has cleared the flag. -/
def OverdueReported (setup : Setup) (state : State) : Prop :=
  ∀ handle ∈ setup.tasks.handles, (state.thread handle).point ≠ .entry →
    (state.thread handle).nextDeadline (setup.tasks.info handle) ≤
      state.kernel.xTickCount → (state.thread handle).point = .hang

/-- Every job that is due has executed its ticks by its deadline. -/
def DueJobsMet (setup : Setup) (state : State) : Prop :=
  ∀ handle ∈ setup.tasks.handles, ∀ start,
    (state.thread handle).jobs.start = some start →
      ∀ n, start + (n + 1) * (setup.tasks.info handle).period ≤
          state.kernel.xTickCount →
        ∃ first last, (state.thread handle).jobs.entered[n]? = some first ∧
          (state.thread handle).jobs.finished[n]? = some last ∧
          first + (setup.tasks.info handle).runtime ≤ last ∧
          last ≤ start + (n + 1) * (setup.tasks.info handle).period

theorem coarse_eq_iff (point : Point) :
    (point.coarse = .entry ↔ point = .entry) ∧
      (point.coarse = .hang ↔ point = .hang) := by
  cases point with
  | delay phase | delayUntil phase => cases phase <;> simp [Point.coarse]
  | _ => simp [Point.coarse]

/-- The points that the deadlines depend on are the same in both programs. -/
theorem PointMatches.coarse_eq {now : ℕ} {condition : Condition}
    {point : Point} {other : RunTask.Point}
    (hpoint : PointMatches now condition point other) :
    other.served = point.coarse.served ∧ (other = .entry ↔ point = .entry) ∧
      (other = .hang ↔ point = .hang) := by
  obtain ⟨hentry, hhang⟩ := coarse_eq_iff point
  cases hpoint with
  | same => exact ⟨rfl, hentry, hhang⟩
  | suspended => simp [Point.coarse, RunTask.Point.served]
  | asleep hcall | awake hcall =>
      rw [hcall] at hentry hhang
      refine ⟨?_, ?_, ?_⟩
      · rw [hcall]
        rfl
      · rw [← hentry]
        exact iff_of_false RunTask.Point.noConfusion RunTask.Point.noConfusion
      · rw [← hhang]
        exact iff_of_false RunTask.Point.noConfusion RunTask.Point.noConfusion

theorem Follows.dueJobsMet_iff (hfollows : Follows setup state clock program)
    (hticks : state.ticks < 2 ^ 32) :
    DueJobsMet setup state ↔ RunTask.DueJobsMet setup.tasks program := by
  refine forall₂_congr fun handle hmem => ?_
  rw [hfollows.jobs_eq hticks hmem, hfollows.tickCount_eq hticks]

/-- Before the verdict no thread is deleted. -/
theorem lives_of_verdict (hreach : (machine setup).Reaches Fits state)
    (htracks : Tracks setup.kernel state.kernel clock)
    (hverdict : state.monitor = .verdict)
    (hmem : handle ∈ setup.tasks.handles) : Lives (clock.condition handle) := by
  have hdeleted := (shutdown_of_reaches hreach).deleted handle
    (List.mem_cons_of_mem _ hmem)
  rw [deleted_iff htracks, hverdict] at hdeleted
  by_contra hdead
  obtain ⟨i, hlt, -⟩ := hdeleted.mp hdead
  exact absurd hlt (Nat.not_lt_zero i)

theorem Follows.overdueReported_iff
    (hfollows : Follows setup state clock program)
    (hticks : state.ticks < 2 ^ 32)
    (hlives : ∀ handle ∈ setup.tasks.handles, Lives (clock.condition handle)) :
    OverdueReported setup state ↔
      RunTask.OverdueReported setup.tasks program := by
  refine forall₂_congr fun handle hmem => ?_
  obtain ⟨hpoint, hlast, -⟩ :=
    hfollows.agrees.thread handle hmem (hlives handle hmem)
  obtain ⟨hserved, hentry, hhang⟩ := hpoint.coarse_eq
  rw [Thread.nextDeadline, RunTask.Thread.nextDeadline, hlast, hserved,
    hfollows.tickCount_eq hticks, ne_eq, ne_eq, hentry, hhang]

/-- With the flag up, the verdict `ALL TASKS SCHEDULABLE` is true if no thread
has let its next deadline pass in silence, and only then. -/
theorem verdict_iff (hreach : (machine setup).Reaches Fits state)
    (hticks : state.ticks < 2 ^ 32)
    (hperiods : ∀ handle ∈ setup.tasks.handles,
      (setup.tasks.info handle).period ≤ 2 ^ 32 - 2 ^ 16)
    (hverdict : state.monitor = .verdict) (hflag : state.schedulable = true) :
    DueJobsMet setup state ↔ OverdueReported setup state := by
  obtain ⟨clock, program, hfollows⟩ := follows_of_reaches hreach
  have hnow := hfollows.now_le.trans_lt hticks
  rw [hfollows.dueJobsMet_iff hticks, hfollows.overdueReported_iff hticks
    fun handle hmem => lives_of_verdict hreach hfollows.tracks hverdict hmem]
  rw [← hfollows.agrees.schedulable] at hflag
  exact ⟨overdueReported_of_dueJobsMet hfollows.reachable hnow hperiods,
    fun hreported => dueJobsMet_of_overdueReported hfollows.reachable hnow
      hreported hflag⟩

/-- At the verdict the deadline of each first job has passed. -/
theorem splitPairOnKernel_verdict : ∃ state : State,
    (state.thread 0).jobs = ⟨some 0, [1], [2]⟩ ∧
      (state.thread 1).jobs = ⟨some 0, [2], [3]⟩ ∧ state.ticks = 4 ∧
      (DueJobsMet splitPairOnKernel state ↔
        OverdueReported splitPairOnKernel state) := by
  obtain ⟨state, hreach, hbody, htail, hticks, hverdict, hflag⟩ :=
    exists_firstPeriod
  refine ⟨state, hbody, htail, hticks,
    verdict_iff hreach ?_ (by decide) hverdict hflag⟩
  rw [hticks]
  norm_num

end PicoSched.Firmware

namespace PicoSched.Refinement

open Loop Main TaskManager

variable {cfg : Config} {creates : ℕ → Option TaskHandle}
  {table : TaskTable cfg} {state : State cfg}

/-- The pieces that the allocation makes of a task do their jobs in order,
whatever happens on the kernel. -/
theorem pieces_inOrder (hdistinct : DistinctHandles creates)
    (hnumbered : table.Numbered) (hhead : Spa2Head creates table state)
    (hcreates : ∀ call < state.memory.currIdx, creates call ≠ none)
    (kernel : DelayedTasks.Setup TaskHandle) {monitor : TaskHandle}
    (hmonitor : monitor ∉ state.memory.handles) (index : Fin cfg.numOfTask) :
    ∃ pieces,
      SplitChain (fun place => (place + 1) % 2 ^ 8) table state index pieces ∧
        (pieceHandles state pieces).length = pieces.length ∧
        ∀ program, (Firmware.machine (createdSetup hdistinct hnumbered hhead
            kernel monitor hmonitor)).Reaches Firmware.Fits program →
          (pieceHandles state pieces).Pairwise (Firmware.InOrder program) := by
  obtain ⟨pieces, first, rest, hsplit, hpieces, hlength, hchain⟩ :=
    exists_createdChain hdistinct hnumbered hhead hcreates index
  refine ⟨pieces, hsplit, ?_, fun program hreach => ?_⟩
  · rw [hpieces, List.length_cons, hlength]
  · rw [hpieces]
    exact Firmware.pairwise_inOrder hreach hchain

/-- `TASK 0` of `main.c` is split, and its tail has the handle 7. -/
theorem mainTable_inOrder :
    ∃ hdistinct : DistinctHandles some, ∃ hnumbered : mainTable.Numbered,
      ∃ state, ∃ hhead : Spa2Head some mainTable state,
        ∃ hmonitor : 20 ∉ state.memory.handles,
          (state.memory.taskList ⟨0, by decide⟩).splittedPtr = some 7 ∧
            ∃ pieces, SplitChain (fun place => (place + 1) % 2 ^ 8) mainTable
                state ⟨0, by decide⟩ pieces ∧
              (pieceHandles state pieces).length = pieces.length ∧
              ∀ program, (Firmware.machine (createdSetup hdistinct hnumbered
                  hhead (DelayedTasks.samePriority TaskHandle) 20
                  hmonitor)).Reaches Firmware.Fits program →
                (pieceHandles state pieces).Pairwise
                  (Firmware.InOrder program) := by
  have hdistinct : DistinctHandles some := fun first second handle hfirst
      hsecond => (Option.some.inj hfirst).trans (Option.some.inj hsecond).symm
  have hnumbered : mainTable.Numbered := by
    rw [TaskTable.Numbered]
    decide
  have hfinal : (spa2 some mainTable).final.map (fun state =>
      ((state.memory.taskList ⟨0, by decide⟩).splittedPtr,
        decide (20 ∈ state.memory.handles))) = some (some 7, false) := by
    decide +kernel
  obtain ⟨state, hrun, hboth⟩ := Option.map_eq_some_iff.mp hfinal
  obtain ⟨hsplit, hmonitor⟩ := Prod.mk.inj hboth
  have hhead := (spa2Head_of_done (Outcome.eq_done_of_final hrun)).1
  exact ⟨hdistinct, hnumbered, state, hhead, of_decide_eq_false hmonitor,
    hsplit, pieces_inOrder hdistinct hnumbered hhead (fun _ _ => nofun) _ _
      ⟨0, by decide⟩⟩

end PicoSched.Refinement
