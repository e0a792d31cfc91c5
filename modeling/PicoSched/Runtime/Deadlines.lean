import PicoSched.Runtime.Clock

/-!
# The deadline of a split task

Every piece of a split task keeps its own `LastRequestTime`, taken when the
piece starts.  A piece that starts later than the first one checks its jobs
against later deadlines than those of the task.
-/

namespace PicoSched.RunTask

open TaskManager Transition

variable {tasks : TaskSet} {first : TaskHandle} {pieces : List TaskHandle}
  {state after : State} {action : Action}

/-- The pieces of a split task from `first` on, each pointing to the next. -/
def TaskSet.Chain (tasks : TaskSet) (first : TaskHandle)
    (pieces : List TaskHandle) : Prop :=
  first ∈ tasks.handles ∧ (first :: pieces).IsChain fun handle successor =>
    (tasks.info handle).splittedPtr = some successor

/-- The jobs of all pieces end, and are checked, by the deadlines of the task
that the start of the first piece sets. -/
def EndToEnd (tasks : TaskSet) (first : TaskHandle)
    (pieces : List TaskHandle) (state : State) : Prop :=
  ∀ start, (state.thread first).history.start = some start →
    ∀ handle ∈ first :: pieces,
      (∀ n tick, (state.thread handle).history.finished[n]? = some tick →
        tick ≤ start + (n + 1) * (tasks.info first).period) ∧
      ((state.thread handle).point.inCall = true →
        (state.thread handle).deadline % 2 ^ 16 ≤ start +
          ((state.thread handle).history.finished.length + 1) *
            (tasks.info first).period)

/-- A piece that takes its first `LastRequestTime` does not do so later than
the first piece did. -/
def StartsInTime (first : TaskHandle) (pieces : List TaskHandle)
    (state : State) : Action → Prop
  | .run handle =>
      handle ∈ first :: pieces → (state.thread handle).point = .entry →
        match (state.thread first).history.start with
        | none => True
        | some start => state.now ≤ start
  | _ => True

instance (first : TaskHandle) (pieces : List TaskHandle) (state : State)
    (action : Action) : Decidable (StartsInTime first pieces state action) := by
  cases action with
  | run handle =>
      unfold StartsInTime
      dsimp only
      cases (state.thread first).history.start <;> infer_instance
  | tick => exact inferInstanceAs (Decidable True)
  | monitor => exact inferInstanceAs (Decidable True)

/-! ## Chains -/

/-- All pieces are created. -/
theorem TaskSet.Chain.mem_handles (hchain : tasks.Chain first pieces) :
    ∀ handle ∈ first :: pieces, handle ∈ tasks.handles := by
  induction pieces generalizing first with
  | nil =>
      intro handle hhandle
      rw [List.mem_singleton.mp hhandle]
      exact hchain.1
  | cons second pieces ih =>
      obtain ⟨hfirst, hlinks⟩ := hchain
      rw [List.isChain_cons_cons] at hlinks
      obtain ⟨hptr, hlinks⟩ := hlinks
      have hsecond := (tasks.linked first hfirst second hptr).1
      intro handle hhandle
      rcases List.mem_cons.mp hhandle with rfl | hhandle
      · exact hfirst
      · exact ih ⟨hsecond, hlinks⟩ handle hhandle

/-- All pieces have the period of the task. -/
theorem TaskSet.Chain.period_eq (hchain : tasks.Chain first pieces) :
    ∀ handle ∈ first :: pieces,
      (tasks.info handle).period = (tasks.info first).period := by
  induction pieces generalizing first with
  | nil =>
      intro handle hhandle
      rw [List.mem_singleton.mp hhandle]
  | cons second pieces ih =>
      obtain ⟨hfirst, hlinks⟩ := hchain
      rw [List.isChain_cons_cons] at hlinks
      obtain ⟨hptr, hlinks⟩ := hlinks
      obtain ⟨hsecond, _, _, hperiod⟩ := tasks.linked first hfirst second hptr
      intro handle hhandle
      rcases List.mem_cons.mp hhandle with rfl | hhandle
      · rfl
      · exact (ih ⟨hsecond, hlinks⟩ handle hhandle).trans hperiod

/-! ## Starts -/

/-- The start tick of a thread is written once, by its first step. -/
theorem start_of_step (hstep : step tasks state action = some after)
    (handle : TaskHandle) :
    (after.thread handle).history.start =
        (state.thread handle).history.start ∨
      action = .run handle ∧ (state.thread handle).point = .entry ∧
        (after.thread handle).history.start = some state.now := by
  have hsame : ∀ {effect : Effect} {state : State},
      ((applyEffect state effect).thread handle).history.start =
        (state.thread handle).history.start := by
    intro effect state
    by_cases heffect : effect = .resume handle
    · subst heffect
      rw [thread_applyEffect_resume]
      by_cases hpoint : (state.thread handle).point = .suspended
      · rw [vTaskResume_of_suspended hpoint]
      · rw [vTaskResume_of_ne hpoint]
    · rw [thread_applyEffect_of_ne heffect]
  rcases step_cases hstep with
    ⟨_, rfl⟩ | ⟨other, _, thread, effect, rfl, hrun, rfl⟩ | ⟨_, monitor, rfl⟩
  · exact .inl rfl
  · rw [hsame]
    by_cases hother : handle = other
    · subst hother
      rw [thread_setThread_self]
      cases hrun with
      | start hpoint => exact .inr ⟨rfl, hpoint, rfl⟩
      | call _ => exact .inl rfl
      | enter _ _ => exact .inl rfl
      | finish _ _ => exact .inl rfl
      | alone _ _ => exact .inl rfl
      | resume _ _ => exact .inl rfl
      | delayUntil _ => exact .inl rfl
      | walk _ => exact .inl rfl
    · rw [thread_setThread_of_ne hother]
      exact .inl rfl
  · exact .inl rfl

/-- In these runs no piece has a later start than the first one. -/
theorem start_le_first
    (hreach : (machine tasks).Reaches (StartsInTime first pieces) state) :
    ∀ handle ∈ first :: pieces, ∀ start own,
      (state.thread first).history.start = some start →
        (state.thread handle).history.start = some own → own ≤ start := by
  apply hreach.invariant (fun state => ∀ handle ∈ first :: pieces,
    ∀ start own, (state.thread first).history.start = some start →
      (state.thread handle).history.start = some own → own ≤ start)
    (fun _ _ _ _ => nofun)
  intro state action after hbefore hpermits hstep hstate handle hmem start own
    hfirst hown
  change step tasks state action = some after at hstep
  have hown' := start_of_step hstep handle
  rcases start_of_step hstep first with hkept | ⟨rfl, hentry, hset⟩
  · rcases hown' with hkept' | ⟨rfl, hentry, hset⟩
    · exact hstate handle hmem start own (hkept ▸ hfirst) (hkept' ▸ hown)
    · -- the piece starts now, after the first one
      have hpermitted := hpermits hmem hentry
      rw [← hkept, hfirst] at hpermitted
      rw [hset] at hown
      exact Option.some.inj hown ▸ hpermitted
  · rw [hset] at hfirst
    obtain rfl := Option.some.inj hfirst
    rcases hown' with hkept' | ⟨_, _, hset'⟩
    · exact (onClock hbefore handle).start_le own (hkept' ▸ hown)
    · rw [hset'] at hown
      exact (Option.some.inj hown).ge

/-! ## Deadlines -/

/-- While the tick counter has not wrapped, the runs in which no piece starts
later than the first keep the deadlines of the task. -/
theorem endToEnd (hchain : tasks.Chain first pieces)
    (hreach : (machine tasks).Reaches (StartsInTime first pieces) state)
    (hwrap : state.now < 2 ^ 32) : EndToEnd tasks first pieces state := by
  intro start hfirst handle hmem
  have hreachable := hreach.reachable
  have hclock := onClock hreachable handle
  have hperiod := hchain.period_eq handle hmem
  rw [← hperiod]
  cases hown : (state.thread handle).history.start with
  | none =>
      -- the piece has not run yet
      have hpoint := hclock.entry.mp hown
      rw [hclock.idle hown, hpoint]
      exact ⟨nofun, nofun⟩
  | some own =>
      have hle := start_le_first hreach handle hmem start own hfirst hown
      constructor
      · intro n tick hfinished
        have htime := onTime hreachable handle hwrap own hown n tick hfinished
        exact htime.trans (Nat.add_le_add_right hle _)
      · intro hcall
        exact (hclock.deadline_le hcall hown).trans (Nat.add_le_add_right hle _)

/-- Both pieces start with the scheduler, the tail ends its job at tick 3. -/
def alignedRun : List Action :=
  [.run 0, .run 1, .run 0, .run 1, .tick, .run 1, .run 1, .run 1, .run 0,
    .run 0, .run 0, .run 0, .tick, .run 0, .run 0, .run 0, .run 0, .run 1,
    .run 1, .tick, .run 1, .run 1, .run 1]

theorem splitPair_endToEnd : ∃ state,
    (state.thread 1).history.finished = [3] ∧
      EndToEnd (splitPair 1 1 3) 0 [1] state := by
  have hexec : ((machine (splitPair 1 1 3)).exec (StartsInTime 0 [1])
      alignedRun (machine (splitPair 1 1 3)).start).any (fun state =>
        decide ((state.thread 1).history.finished = [3] ∧
          state.now < 2 ^ 32)) = true := by decide
  obtain ⟨state, hreach, hfinal⟩ := Machine.exists_reaches_of_exec _ _ hexec
  obtain ⟨hfinished, hwrap⟩ := of_decide_eq_true hfinal
  refine ⟨state, hfinished, endToEnd ⟨by decide, ?_⟩ hreach hwrap⟩
  exact .cons_cons rfl (.singleton 1)

/-- The tail starts one tick after the body. -/
def shiftedRun : List Action :=
  [.run 0, .run 0, .tick, .run 1, .run 1, .run 0, .run 0, .run 0, .run 0,
    .tick, .run 0, .run 0, .run 0, .run 1, .run 1, .run 1, .run 0, .tick,
    .run 1, .run 1, .tick, .run 1, .run 1, .run 1]

/-- The task starts at tick 0 with period 3, and the tail ends its first job
at tick 4 without an overflow. -/
theorem splitPair_not_endToEnd : ∃ state,
    (machine (splitPair 1 1 3)).Reachable state ∧ state.now < 2 ^ 32 ∧
      state.schedulable = true ∧
      (state.thread 0).point ≠ .failed ∧ (state.thread 1).point ≠ .failed ∧
      (state.thread 0).history.start = some 0 ∧
      (state.thread 1).history.finished = [4] ∧
      ¬EndToEnd (splitPair 1 1 3) 0 [1] state := by
  have hexec : ((machine (splitPair 1 1 3)).exec (fun _ _ => True) shiftedRun
      (machine (splitPair 1 1 3)).start).any (fun state =>
        decide (state.now < 2 ^ 32 ∧ state.schedulable = true ∧
          (state.thread 0).point ≠ .failed ∧
          (state.thread 1).point ≠ .failed ∧
          (state.thread 0).history.start = some 0 ∧
          (state.thread 1).history.finished = [4])) = true := by decide
  obtain ⟨state, hreach, hfinal⟩ := Machine.exists_reaches_of_exec _ _ hexec
  obtain ⟨hwrap, hflag, hbody, htail, hstart, hfinished⟩ :=
    of_decide_eq_true hfinal
  refine ⟨state, hreach, hwrap, hflag, hbody, htail, hstart, hfinished,
    fun hkept => ?_⟩
  have hlate := (hkept 0 hstart 1 (by decide)).1 0 4 (by rw [hfinished]; rfl)
  exact absurd hlate (by decide)

end PicoSched.RunTask
