import PicoSched.Runtime.Wakeups
import PicoSched.Runtime.Deadlines

/-!
# The order of the pieces of a task

A piece with `Dependency` set enters a job only after it was taken off the
suspended list, and only its predecessor takes it off, at the end of a job of
its own.  So a piece never starts a job that the pieces before it in the chain
have not completed.
-/

namespace PicoSched.RunTask

open TaskManager Transition

variable {tasks : TaskSet} {task : TaskInfo} {now now' : ℕ}
  {thread thread' : Thread} {handle successor : TaskHandle}
  {first : TaskHandle} {pieces : List TaskHandle} {state after : State}
  {action : Action}

/-! ## The lists of one thread -/

/-- A job is entered in one step, at the current tick. -/
theorem Moves.entered (hmoves : Moves task now thread now' thread') :
    thread'.history.entered = thread.history.entered ∨
      thread.point = .job ∧
        thread'.history.entered = thread.history.entered ++ [now] := by
  cases hmoves with
  | stay => exact .inl rfl
  | tick => exact .inl rfl
  | resumed _ => exact .inl rfl
  | run hrun =>
      cases hrun with
      | enter hpoint _ => exact .inr ⟨hpoint, rfl⟩
      | _ => exact .inl rfl

/-- A job is finished in one step, at the current tick. -/
theorem Moves.finished (hmoves : Moves task now thread now' thread') :
    thread'.history.finished = thread.history.finished ∨
      thread'.history.finished = thread.history.finished ++ [now] := by
  cases hmoves with
  | stay => exact .inl rfl
  | tick => exact .inl rfl
  | resumed _ => exact .inl rfl
  | run hrun =>
      cases hrun with
      | finish _ _ => exact .inr rfl
      | _ => exact .inl rfl

theorem Moves.now_le (hmoves : Moves task now thread now' thread') :
    now ≤ now' := by
  cases hmoves with
  | tick => exact Nat.le_succ now
  | _ => exact le_rfl

/-- Nothing that is recorded at the current tick is in the future. -/
theorem recorded_le_now (recorded : Thread → List ℕ)
    (hcreated : recorded .created = [])
    (hmoves : ∀ {task now thread now' thread'},
      Moves task now thread now' thread' → recorded thread' = recorded thread ∨
        recorded thread' = recorded thread ++ [now])
    (hreach : (machine tasks).Reachable state) (handle : TaskHandle) :
    ∀ tick ∈ recorded (state.thread handle), tick ≤ state.now := by
  apply thread_invariant
    (fun now thread => ∀ tick ∈ recorded thread, tick ≤ now) handle ?_ ?_ hreach
  · intro tick htick
    rw [hcreated] at htick
    exact absurd htick List.not_mem_nil
  · intro now thread now' thread' hstep hbefore tick htick
    rcases hmoves hstep with hsame | hnew
    · rw [hsame] at htick
      exact (hbefore tick htick).trans hstep.now_le
    · rw [hnew, List.mem_append, List.mem_singleton] at htick
      rcases htick with hold | rfl
      · exact (hbefore tick hold).trans hstep.now_le
      · exact hstep.now_le

theorem finished_le_now (hreach : (machine tasks).Reachable state)
    (handle : TaskHandle) :
    ∀ tick ∈ (state.thread handle).history.finished, tick ≤ state.now :=
  recorded_le_now (·.history.finished) rfl Moves.finished hreach handle

theorem entered_le_now (hreach : (machine tasks).Reachable state)
    (handle : TaskHandle) :
    ∀ tick ∈ (state.thread handle).history.entered, tick ≤ state.now :=
  recorded_le_now (·.history.entered) rfl
    (fun hmoves => hmoves.entered.imp_right And.right) hreach handle

/-- The jobs a thread has entered or is allowed to enter. -/
def Thread.admitted (thread : Thread) : ℕ :=
  thread.history.entered.length + if thread.point = .job then 1 else 0

theorem admitted_of_ne (hpoint : thread.point ≠ .job) :
    thread.admitted = thread.history.entered.length := by
  rw [Thread.admitted, if_neg hpoint, add_zero]

theorem entered_le_admitted (thread : Thread) :
    thread.history.entered.length ≤ thread.admitted :=
  Nat.le_add_right _ _

/-- The next step enters at most a job the thread is admitted to. -/
theorem Moves.entered_le_admitted
    (hmoves : Moves task now thread now' thread') :
    thread'.history.entered.length ≤ thread.admitted := by
  rcases hmoves.entered with hsame | ⟨hpoint, hnew⟩
  · rw [hsame]
    exact RunTask.entered_le_admitted thread
  · rw [hnew, List.length_append, Thread.admitted, if_pos hpoint]
    exact le_rfl

theorem Walk.ne_job {deadline : ℕ} {point point' : Point} {effect : Effect}
    (hwalk : Walk task now deadline point point' effect) :
    point ≠ .job ∧ point' ≠ .job := by
  cases hwalk <;> exact ⟨nofun, nofun⟩

/-- A piece with `Dependency` set is admitted to one job for every time it was
taken off the suspended list. -/
theorem releases_eq_admitted (hreach : (machine tasks).Reachable state)
    (hdependency : (tasks.info handle).dependency = true) :
    (state.thread handle).history.releases =
      (state.thread handle).admitted := by
  apply thread_invariant
    (fun _ thread => thread.history.releases = thread.admitted) handle rfl ?_
    hreach
  intro now thread now' thread' hmoves hbefore
  cases hmoves with
  | stay => exact hbefore
  | tick => exact hbefore
  | resumed hpoint =>
      rw [admitted_of_ne (hpoint ▸ nofun)] at hbefore
      exact congrArg (· + 1) hbefore
  | run hrun =>
      cases hrun with
      | start hpoint =>
          rw [admitted_of_ne (hpoint ▸ nofun)] at hbefore
          exact hbefore
      | call hpoint =>
          rw [admitted_of_ne (hpoint ▸ nofun)] at hbefore
          simp [Thread.admitted, hdependency, hbefore]
      | enter hpoint hchecked =>
          rw [Thread.admitted, if_pos hpoint] at hbefore
          rcases hchecked with rfl | rfl <;>
            simp [Thread.admitted, hbefore]
      | finish hpoint _ =>
          rw [admitted_of_ne (hpoint ▸ nofun)] at hbefore
          exact hbefore
      | alone hpoint _ =>
          rw [admitted_of_ne (hpoint ▸ nofun)] at hbefore
          exact hbefore
      | resume hpoint _ =>
          rw [admitted_of_ne (hpoint ▸ nofun)] at hbefore
          exact hbefore
      | delayUntil hpoint =>
          have hnext : (vTaskDelayUntil (tasks.info handle) now thread).point ≠
              .job := by
            rcases point_vTaskDelayUntil with ⟨wake, hwake⟩ | hcall
            · exact hwake ▸ nofun
            · exact hcall ▸ nofun
          rw [admitted_of_ne (hpoint ▸ nofun)] at hbefore
          rw [admitted_of_ne hnext]
          exact hbefore
      | walk hwalk =>
          obtain ⟨hold, hnew⟩ := hwalk.ne_job
          rw [admitted_of_ne hold] at hbefore
          rw [admitted_of_ne hnew]
          exact hbefore

/-- A thread finishes only jobs it has entered. -/
theorem finished_le_entered (hreach : (machine tasks).Reachable state)
    (handle : TaskHandle) :
    (state.thread handle).history.finished.length ≤
      (state.thread handle).history.entered.length := by
  rw [(counting hreach handle).entered]
  exact Nat.le_add_right _ _

/-! ## Neighbours -/

theorem completed_le_finished (thread : Thread) :
    thread.completed ≤ thread.history.finished.length := by
  rw [Thread.completed]
  split
  · exact Nat.sub_le _ _
  · exact le_rfl

/-- A successor is admitted to no job its predecessor has not completed. -/
theorem admitted_le_finished (hreach : (machine tasks).Reachable state)
    (hmem : handle ∈ tasks.handles)
    (hptr : (tasks.info handle).splittedPtr = some successor) :
    (state.thread successor).admitted ≤
      (state.thread handle).history.finished.length := by
  have hdependency := (tasks.linked handle hmem successor hptr).2.2.1
  calc
    (state.thread successor).admitted =
        (state.thread successor).history.releases :=
      (releases_eq_admitted hreach hdependency).symm
    _ ≤ (state.thread handle).history.resumes :=
      releases_le_resumes hreach handle hmem successor hptr
    _ = (state.thread handle).completed :=
      resumes_eq_completed hreach handle (hptr ▸ nofun)
    _ ≤ (state.thread handle).history.finished.length :=
      completed_le_finished _

/-! ## Chains -/

/-- No piece is admitted to a job that a piece before it has not completed. -/
theorem TaskSet.Chain.pairwise_admitted (hchain : tasks.Chain first pieces)
    (hreach : (machine tasks).Reachable state) :
    (first :: pieces).Pairwise fun earlier later =>
      (state.thread later).admitted ≤
        (state.thread earlier).history.finished.length := by
  induction pieces generalizing first with
  | nil => exact List.pairwise_singleton _ _
  | cons second pieces ih =>
      obtain ⟨hfirst, hlinks⟩ := hchain
      rw [List.isChain_cons_cons] at hlinks
      obtain ⟨hptr, hlinks⟩ := hlinks
      have hsecond := (tasks.linked first hfirst second hptr).1
      have hrest := ih ⟨hsecond, hlinks⟩
      have hnext := admitted_le_finished hreach hfirst hptr
      refine List.pairwise_cons.mpr ⟨?_, hrest⟩
      intro later hlater
      rcases List.mem_cons.mp hlater with rfl | hlater
      · exact hnext
      · calc
          (state.thread later).admitted ≤
              (state.thread second).history.finished.length :=
            List.rel_of_pairwise_cons hrest hlater
          _ ≤ (state.thread second).history.entered.length :=
            finished_le_entered hreach second
          _ ≤ (state.thread second).admitted := entered_le_admitted _
          _ ≤ (state.thread first).history.finished.length := hnext

/-- Job `n` of `later` starts when job `n` of `earlier` is completed: in the
counts of the state, in the step that starts a job, and by the ticks. -/
structure StartsAfter (tasks : TaskSet) (state : State)
    (earlier later : TaskHandle) : Prop where
  counts : (state.thread later).history.entered.length ≤
    (state.thread earlier).history.finished.length
  started : ∀ action after, step tasks state action = some after →
    (after.thread later).history.entered.length ≤
      (state.thread earlier).history.finished.length
  ticks : ∀ n done start : ℕ,
    (state.thread earlier).history.finished[n]? = some done →
      (state.thread later).history.entered[n]? = some start → done ≤ start

/-- The ticks follow from the counts in all reachable states. -/
theorem done_le_start {earlier later : TaskHandle}
    (hcounts : ∀ state, (machine tasks).Reachable state →
      (state.thread later).admitted ≤
        (state.thread earlier).history.finished.length)
    (hreach : (machine tasks).Reachable state) :
    ∀ n done start : ℕ,
      (state.thread earlier).history.finished[n]? = some done →
        (state.thread later).history.entered[n]? = some start →
          done ≤ start := by
  apply hreach.invariant (fun state => ∀ n done start : ℕ,
    (state.thread earlier).history.finished[n]? = some done →
      (state.thread later).history.entered[n]? = some start → done ≤ start)
  · intro n done start hdone
    cases hdone
  intro state action after hbefore _ hstep hstate n done start hdone hstart
  have hle := hcounts state hbefore
  -- a job that is entered by now was completed before this step
  have hfinished : (state.thread earlier).history.finished[n]? = some done := by
    rcases (moves_of_step hstep earlier).finished with hsame | hnew
    · rwa [hsame] at hdone
    · have hless : n < (after.thread later).history.entered.length :=
        (List.getElem?_eq_some_iff.mp hstart).1
      have hadmitted := (moves_of_step hstep later).entered_le_admitted
      rw [hnew, List.getElem?_append_left (by omega)] at hdone
      exact hdone
  rcases (moves_of_step hstep later).entered with hsame | ⟨_, hnew⟩
  · rw [hsame] at hstart
    exact hstate n done start hfinished hstart
  · rw [hnew] at hstart
    rcases getElem?_concat hstart with hold | ⟨_, rfl⟩
    · exact hstate n done start hfinished hold
    · exact finished_le_now hbefore earlier done
        (List.mem_of_getElem? hfinished)

theorem TaskSet.Chain.pairwise_startsAfter (hchain : tasks.Chain first pieces)
    (hreach : (machine tasks).Reachable state) :
    (first :: pieces).Pairwise (StartsAfter tasks state) := by
  refine List.pairwise_iff_getElem.mpr fun i j hi hj hij => ?_
  have hcounts : ∀ state, (machine tasks).Reachable state →
      (state.thread (first :: pieces)[j]).admitted ≤
        (state.thread (first :: pieces)[i]).history.finished.length :=
    fun state hreach => List.pairwise_iff_getElem.mp
      (hchain.pairwise_admitted hreach) i j hi hj hij
  have hle := hcounts state hreach
  constructor
  · exact (entered_le_admitted _).trans hle
  · intro action after hstep
    exact (moves_of_step hstep _).entered_le_admitted.trans hle
  · exact done_le_start hcounts hreach

/-- In every run, every piece of a split task starts its jobs after all the
pieces before it have completed theirs. -/
theorem startsAfter (hchain : tasks.Chain first pieces)
    (hreach : (machine tasks).Reachable state) :
    (first :: pieces).Pairwise (StartsAfter tasks state) :=
  hchain.pairwise_startsAfter hreach

/-- Both pieces of a task do their first job. -/
theorem splitPair_startsAfter : ∃ state,
    (state.thread 0).history.finished = [2] ∧
      (state.thread 1).history.entered = [2] ∧
      [0, 1].Pairwise (StartsAfter (splitPair 1 1 3) state) := by
  have hexec : ((machine (splitPair 1 1 3)).exec (StartsInTime 0 [1])
      alignedRun (machine (splitPair 1 1 3)).start).any (fun state =>
        decide ((state.thread 0).history.finished = [2] ∧
          (state.thread 1).history.entered = [2])) = true := by decide
  obtain ⟨state, hreach, hfinal⟩ := Machine.exists_reaches_of_exec _ _ hexec
  obtain ⟨hfinished, hentered⟩ := of_decide_eq_true hfinal
  refine ⟨state, hfinished, hentered,
    startsAfter ⟨by decide, ?_⟩ hreach.reachable⟩
  exact .cons_cons rfl (.singleton 1)

end PicoSched.RunTask
