import Mathlib.Data.Fintype.EquivFin
import Mathlib.Data.List.MinMax
import PicoSched.Model.Kernel

/-!
# What the dispatcher guarantees

In every state the kernel reaches, a core without a pending yield runs a task
whose kernel priority is at least that of every ready task pinned to the core.
-/

namespace PicoSched.Kernel

open TaskManager

variable {cores : ℕ} {setup : Setup cores} {state state' : State cores}
  {here core : Fin cores} {task : TaskHandle} {action : Action cores}

/-- The affinity mask of the task names this core only. -/
def Setup.Pinned (setup : Setup cores) (task : TaskHandle) (core : Fin cores) :
    Prop :=
  ∀ other, setup.allows task other = true ↔ other = core

/-- The fields of the state agree with each other. -/
structure Wellformed (setup : Setup cores) (state : State cores) : Prop where
  running : ∀ core, state.runState (state.current core) = .running core ∨
    state.runState (state.current core) = .scheduledToYield
  owner : ∀ task, state.runState task ≠ .notRunning →
    ∃ core, state.current core = task
  injective : Function.Injective state.current
  allowed : ∀ core, setup.allows (state.current core) core = true
  idle : ∀ core, setup.idle core ∈ state.ready 0
  priority : ∀ priority, ∀ task ∈ state.ready priority,
    (setup.tcb task).uxPriority = priority
  top : ∀ priority, state.ready priority ≠ [] → priority ≤ state.topReady

def State.Ready (setup : Setup cores) (state : State cores)
    (task : TaskHandle) : Prop :=
  task ∈ state.ready (setup.tcb task).uxPriority

/-- The core, unless it has to yield, runs a ready task, of a priority as high
as that of any ready task pinned to it. -/
def DispatchedAt (setup : Setup cores) (state : State cores)
    (core : Fin cores) : Prop :=
  ¬state.pending core →
    state.Ready setup (state.current core) ∧
      ∀ task, state.Ready setup task → setup.Pinned task core →
        (setup.tcb task).uxPriority ≤
          (setup.tcb (state.current core)).uxPriority

def Dispatched (setup : Setup cores) (state : State cores) : Prop :=
  ∀ core, DispatchedAt setup state core

/-! ## Steps that only pend yields -/

/-- Nothing changes but that some running tasks have to yield. -/
structure Pends (state state' : State cores) : Prop where
  ready : state'.ready = state.ready
  topReady : state'.topReady = state.topReady
  current : state'.current = state.current
  yieldPending : ∀ core, state.yieldPending core = true →
    state'.yieldPending core = true
  runState : ∀ task, state'.runState task = state.runState task ∨
    state'.runState task = .scheduledToYield ∧ ∃ core, state.current core = task

theorem Pends.refl (state : State cores) : Pends state state :=
  ⟨rfl, rfl, rfl, fun _ hpending => hpending, fun _ => .inl rfl⟩

theorem Pends.trans {state'' : State cores} (hfirst : Pends state state')
    (hsecond : Pends state' state'') : Pends state state'' where
  ready := hsecond.ready.trans hfirst.ready
  topReady := hsecond.topReady.trans hfirst.topReady
  current := hsecond.current.trans hfirst.current
  yieldPending core hpending :=
    hsecond.yieldPending core (hfirst.yieldPending core hpending)
  runState task := by
    rcases hsecond.runState task with hsame | ⟨hyield, core, hcore⟩
    · rw [hsame]
      exact hfirst.runState task
    · exact .inr ⟨hyield, core, hfirst.current ▸ hcore⟩

theorem Pends.pending (hpends : Pends state state')
    (hpending : state.pending core) : state'.pending core := by
  rcases hpending with hflag | hyield
  · exact .inl (hpends.yieldPending core hflag)
  · right
    rw [hpends.current]
    rcases hpends.runState (state.current core) with hsame | ⟨hset, _⟩
    · exact hsame.trans hyield
    · exact hset

theorem Pends.wellformed (hpends : Pends state state')
    (hwell : Wellformed setup state) : Wellformed setup state' where
  running core := by
    rw [hpends.current]
    rcases hpends.runState (state.current core) with hsame | ⟨hset, _⟩
    · rw [hsame]
      exact hwell.running core
    · exact .inr hset
  owner task hrun := by
    rw [hpends.current]
    rcases hpends.runState task with hsame | ⟨_, howner⟩
    · exact hwell.owner task (hsame ▸ hrun)
    · exact howner
  injective := hpends.current ▸ hwell.injective
  allowed := hpends.current ▸ hwell.allowed
  idle := hpends.ready ▸ hwell.idle
  priority := hpends.ready ▸ hwell.priority
  top := by
    rw [hpends.ready, hpends.topReady]
    exact hwell.top

theorem Pends.dispatched (hpends : Pends state state')
    (hdispatched : Dispatched setup state) : Dispatched setup state' := by
  intro core hpending
  simp only [State.Ready, hpends.ready, hpends.current]
  exact hdispatched core fun hbefore => hpending (hpends.pending hbefore)

theorem pends_prvYieldCore (here core : Fin cores) (state : State cores) :
    Pends state (prvYieldCore here core state) := by
  rw [prvYieldCore]
  split
  · refine ⟨rfl, rfl, rfl, fun other hother => ?_, fun _ => .inl rfl⟩
    by_cases hcore : other = core
    · subst hcore
      exact Function.update_self ..
    · exact (Function.update_of_ne hcore ..).trans hother
  · split
    · refine ⟨rfl, rfl, rfl, fun _ hother => hother, fun task => ?_⟩
      by_cases htask : task = state.current core
      · subst htask
        exact .inr ⟨Function.update_self .., core, rfl⟩
      · exact .inl (Function.update_of_ne htask ..)
    · exact .refl state

theorem pending_prvYieldCore (here core : Fin cores) (state : State cores) :
    (prvYieldCore here core state).pending core := by
  rw [prvYieldCore]
  split
  · exact .inl (Function.update_self ..)
  · split
    · exact .inr (Function.update_self ..)
    · rename_i hyield
      exact .inr (not_not.mp hyield)

/-! ## A task becomes ready -/

/-- The search of `prvYieldForTask` finds a core whose task is to be preempted,
unless there is none. -/
theorem preempt_spec (setup : Setup cores) (state : State cores)
    (task : TaskHandle) (cores' : List (Fin cores))
    (best : ℤ × Option (Fin cores)) :
    let found := (cores'.foldl (preemptStep setup state task) best).2
    (∀ core, found = some core →
        best.2 = some core ∨ setup.allows task core = true) ∧
      (found = none → ∀ core ∈ cores',
        state.isRunning (state.current core) = true →
          state.yieldPending core = false → setup.allows task core = true →
            best.1 < setup.corePriority (state.current core)) := by
  induction cores' generalizing best with
  | nil => exact ⟨fun core hfound => .inl hfound, fun _ _ hnone => nomatch hnone⟩
  | cons first cores' ih =>
      obtain ⟨hsome, hnone⟩ := ih (preemptStep setup state task best first)
      have hstuck : ∀ (rest : List (Fin cores)) (low : ℤ) (core : Fin cores),
          (rest.foldl (preemptStep setup state task) (low, some core)).2 ≠
            none := by
        intro rest
        induction rest with
        | nil => exact fun _ _ => nofun
        | cons next rest ih' =>
            intro low core
            rw [List.foldl_cons, preemptStep]
            split
            · exact ih' _ _
            · exact ih' _ _
      constructor
      · intro core hfound
        rcases hsome core hfound with hbest | hallows
        · rw [preemptStep] at hbest
          split at hbest
          · rename_i hcandidate
            obtain rfl := Option.some.inj hbest
            exact .inr hcandidate.2.2.2
          · exact .inl hbest
        · exact .inr hallows
      · intro hfound
        rw [List.foldl_cons] at hfound
        by_cases hcandidate : state.isRunning (state.current first) ∧
            state.yieldPending first = false ∧
            setup.corePriority (state.current first) ≤ best.1 ∧
            setup.allows task first
        · rw [preemptStep, if_pos hcandidate] at hfound
          exact absurd hfound (hstuck _ _ _)
        · have hkept : preemptStep setup state task best first = best :=
            if_neg hcandidate
          rw [hkept] at hnone hfound
          intro core hcore hrunning hquiet hallows
          rcases List.mem_cons.mp hcore with rfl | hrest
          · by_contra hle
            exact hcandidate ⟨hrunning, hquiet, not_lt.mp hle, hallows⟩
          · exact hnone hfound core hrest hrunning hquiet hallows

theorem pends_prvYieldForTask (setup : Setup cores) (here : Fin cores)
    (task : TaskHandle) (state : State cores) :
    Pends state (prvYieldForTask setup here task state) := by
  rw [prvYieldForTask]
  split
  · exact .refl state
  · split
    · exact .refl state
    · exact pends_prvYieldCore here _ state

theorem corePriority_le (setup : Setup cores) (task : TaskHandle) :
    setup.corePriority task ≤ (setup.tcb task).uxPriority := by
  rw [Setup.corePriority]
  split <;> omega

/-- After `prvYieldForTask` the task does not wait behind one of lower priority
on a core that goes on. -/
theorem prvYieldForTask_dispatched (hwell : Wellformed setup state)
    (hpinned : setup.Pinned task core)
    (hpending : ¬(prvYieldForTask setup here task state).pending core) :
    (setup.tcb task).uxPriority ≤
      (setup.tcb (state.current core)).uxPriority := by
  have hbefore : ¬state.pending core := fun hbefore =>
    hpending ((pends_prvYieldForTask setup here task state).pending hbefore)
  have hrun : state.runState (state.current core) = .running core :=
    (hwell.running core).resolve_right fun hyield => hbefore (.inr hyield)
  have hquiet : state.yieldPending core = false :=
    Bool.eq_false_iff.mpr fun hflag => hbefore (.inl hflag)
  rw [prvYieldForTask] at hpending
  split at hpending
  · -- the task is running, and only this core can run it
    rename_i hrunning
    have hrunState : state.runState task ≠ .notRunning := by
      intro hnot
      rw [State.isRunning, hnot] at hrunning
      cases hrunning
    obtain ⟨other, hother⟩ := hwell.owner task hrunState
    have hallowed := hwell.allowed other
    rw [hother, hpinned other] at hallowed
    rw [← hallowed, hother]
  · obtain ⟨hsome, hnone⟩ := preempt_spec setup state task
      (List.finRange cores) (((setup.tcb task).uxPriority : ℤ) - 1, none)
    split at hpending
    · rename_i hfound
      have hless := hnone hfound core (List.mem_finRange core)
        (by rw [State.isRunning, hrun]) hquiet ((hpinned core).mpr rfl)
      have hle := corePriority_le setup (state.current core)
      have hcast : ((setup.tcb task).uxPriority : ℤ) ≤
          (setup.tcb (state.current core)).uxPriority := by
        change ((setup.tcb task).uxPriority : ℤ) - 1 < _ at hless
        omega
      exact_mod_cast hcast
    · rename_i other hfound
      have hallows := (hsome other hfound).resolve_left nofun
      obtain rfl := (hpinned other).mp hallows
      exact absurd (pending_prvYieldCore here other state) hpending

theorem mem_ready_prvAddTaskToReadyList {other : TaskHandle} {priority : ℕ}
    (hready : other ∈ state.ready priority) :
    other ∈ (prvAddTaskToReadyList setup task state).ready priority := by
  change other ∈ Function.update state.ready _ _ priority
  by_cases hpriority : priority = (setup.tcb task).uxPriority
  · subst hpriority
    rw [Function.update_self]
    exact List.mem_append_left _ hready
  · rwa [Function.update_of_ne hpriority]

theorem wellformed_prvAddTaskToReadyList (hwell : Wellformed setup state)
    (task : TaskHandle) :
    Wellformed setup (prvAddTaskToReadyList setup task state) where
  running := hwell.running
  owner := hwell.owner
  injective := hwell.injective
  allowed := hwell.allowed
  idle core := mem_ready_prvAddTaskToReadyList (hwell.idle core)
  priority priority other hother := by
    change other ∈ Function.update state.ready _ _ priority at hother
    by_cases hpriority : priority = (setup.tcb task).uxPriority
    · subst hpriority
      rw [Function.update_self, List.mem_append, List.mem_singleton] at hother
      rcases hother with hready | rfl
      · exact hwell.priority _ other hready
      · rfl
    · rw [Function.update_of_ne hpriority] at hother
      exact hwell.priority priority other hother
  top priority hready := by
    change priority ≤ if state.topReady < (setup.tcb task).uxPriority then
      (setup.tcb task).uxPriority else state.topReady
    by_cases hpriority : priority = (setup.tcb task).uxPriority
    · subst hpriority
      split
      · exact le_rfl
      · rename_i hle
        exact not_lt.mp hle
    · have hbefore : state.ready priority ≠ [] := by
        change Function.update state.ready _ _ priority ≠ [] at hready
        rwa [Function.update_of_ne hpriority] at hready
      have hle := hwell.top priority hbefore
      split
      · rename_i hless
        exact hle.trans hless.le
      · exact hle

/-! ## Selection -/

theorem mem_ready_rotate (core : Fin cores) (priority : ℕ) :
    task ∈ (rotate setup core state).ready priority ↔
      task ∈ state.ready priority := by
  rw [rotate]
  split
  · rename_i hready
    by_cases hpriority : priority =
        (setup.tcb (state.current core)).uxPriority
    · subst hpriority
      change task ∈ Function.update state.ready _ _ _ ↔ _
      rw [Function.update_self]
      exact ((List.perm_append_singleton _ _).trans
        (List.perm_cons_erase hready).symm).mem_iff
    · change task ∈ Function.update state.ready _ _ _ ↔ _
      rw [Function.update_of_ne hpriority]
  · rfl

theorem ready_rotate_ne_nil (core : Fin cores) (priority : ℕ) :
    (rotate setup core state).ready priority ≠ [] ↔
      state.ready priority ≠ [] := by
  simp only [Ne, List.eq_nil_iff_forall_not_mem, mem_ready_rotate]

section Rotate

variable (setup) (core) (state)

@[simp]
theorem topReady_rotate : (rotate setup core state).topReady = state.topReady := by
  rw [rotate]
  split <;> rfl

@[simp]
theorem current_rotate : (rotate setup core state).current = state.current := by
  rw [rotate]
  split <;> rfl

@[simp]
theorem runState_rotate :
    (rotate setup core state).runState = state.runState := by
  rw [rotate]
  split <;> rfl

@[simp]
theorem yieldPending_rotate :
    (rotate setup core state).yieldPending = state.yieldPending := by
  rw [rotate]
  split <;> rfl

end Rotate

theorem wellformed_rotate (hwell : Wellformed setup state) (core : Fin cores) :
    Wellformed setup (rotate setup core state) where
  running := by
    rw [current_rotate, runState_rotate]
    exact hwell.running
  owner := by
    rw [current_rotate, runState_rotate]
    exact hwell.owner
  injective := by
    rw [current_rotate]
    exact hwell.injective
  allowed := by
    rw [current_rotate]
    exact hwell.allowed
  idle other := (mem_ready_rotate core 0).mpr (hwell.idle other)
  priority priority task hready :=
    hwell.priority priority task ((mem_ready_rotate core priority).mp hready)
  top priority hready := by
    rw [topReady_rotate]
    exact hwell.top priority ((ready_rotate_ne_nil core priority).mp hready)

/-- The loop finds a selectable task of the highest priority that has one. -/
theorem selectLoop_spec (setup : Setup cores) (core : Fin cores)
    (state : State cores) (priority : ℕ) (decrement : Bool) (top : ℕ) :
    (∀ task, (selectLoop setup core state priority decrement top).1 = some task →
      ∃ level ≤ priority, task ∈ state.ready level ∧
        selectable setup core state task = true ∧
        ∀ above, level < above → above ≤ priority →
          ∀ other ∈ state.ready above,
            selectable setup core state other = false) ∧
    ((selectLoop setup core state priority decrement top).1 = none →
      ∀ level ≤ priority, ∀ other ∈ state.ready level,
        selectable setup core state other = false) := by
  induction priority generalizing decrement top with
  | zero =>
      rw [selectLoop]
      cases hlist : state.ready 0 with
      | nil =>
          refine ⟨nofun, fun _ level hlevel other hother => ?_⟩
          obtain rfl := Nat.le_zero.mp hlevel
          rw [hlist] at hother
          cases hother
      | cons first rest =>
          constructor
          · intro task hfound
            refine ⟨0, le_rfl, ?_, List.find?_some hfound, ?_⟩
            · rw [hlist]
              exact List.mem_of_find?_eq_some hfound
            · intro above hless hle
              omega
          · intro hnone level hlevel other hother
            obtain rfl := Nat.le_zero.mp hlevel
            rw [hlist] at hother
            exact Bool.eq_false_iff.mpr (List.find?_eq_none.mp hnone other hother)
  | succ priority ih =>
      rw [selectLoop]
      cases hlist : state.ready (priority + 1) with
      | nil =>
          have hempty : ∀ other ∈ state.ready (priority + 1),
              selectable setup core state other = false := by
            rw [hlist]
            exact fun _ => nofun
          obtain ⟨hsome, hnone⟩ := ih decrement (if decrement then top - 1 else top)
          constructor
          · intro task hfound
            obtain ⟨level, hle, hready, hselect, habove⟩ := hsome task hfound
            refine ⟨level, hle.trans (Nat.le_succ _), hready, hselect, ?_⟩
            intro above hless hle'
            rcases Nat.le_succ_iff.mp hle' with hle' | rfl
            · exact habove above hless hle'
            · exact hempty
          · intro hfound level hlevel
            rcases Nat.le_succ_iff.mp hlevel with hlevel | rfl
            · exact hnone hfound level hlevel
            · exact hempty
      | cons first rest =>
          dsimp only
          cases hfind : (first :: rest).find? (selectable setup core state) with
          | some chosen =>
              dsimp only
              refine ⟨fun task hfound => ?_, nofun⟩
              obtain rfl := Option.some.inj hfound
              refine ⟨priority + 1, le_rfl, ?_, List.find?_some hfind, ?_⟩
              · rw [hlist]
                exact List.mem_of_find?_eq_some hfind
              · intro above hless hle
                omega
          | none =>
              dsimp only
              have hskip : ∀ other ∈ state.ready (priority + 1),
                  selectable setup core state other = false := by
                rw [hlist]
                intro other hother
                exact Bool.eq_false_iff.mpr
                  (List.find?_eq_none.mp hfind other hother)
              obtain ⟨hsome, hnone⟩ := ih false top
              constructor
              · intro task hfound
                obtain ⟨level, hle, hready, hselect, habove⟩ := hsome task hfound
                refine ⟨level, hle.trans (Nat.le_succ _), hready, hselect, ?_⟩
                intro above hless hle'
                rcases Nat.le_succ_iff.mp hle' with hle' | rfl
                · exact habove above hless hle'
                · exact hskip
              · intro hfound level hlevel
                rcases Nat.le_succ_iff.mp hlevel with hlevel | rfl
                · exact hnone hfound level hlevel
                · exact hskip

/-- The top priority is lowered only past empty lists. -/
theorem selectLoop_top (setup : Setup cores) (core : Fin cores)
    (state : State cores) (priority : ℕ) (decrement : Bool) (top : ℕ)
    (htop : ∀ level, state.ready level ≠ [] → level ≤ top)
    (hdecrement : decrement = true → top = priority) (level : ℕ)
    (hready : state.ready level ≠ []) :
    level ≤ (selectLoop setup core state priority decrement top).2 := by
  induction priority generalizing decrement top with
  | zero =>
      rw [selectLoop]
      cases hlist : state.ready 0 with
      | nil =>
          cases decrement with
          | false => exact htop level hready
          | true =>
              have hlevel := htop level hready
              rw [hdecrement rfl, Nat.le_zero] at hlevel
              exact absurd (hlevel ▸ hlist) hready
      | cons first rest => exact htop level hready
  | succ priority ih =>
      rw [selectLoop]
      cases hlist : state.ready (priority + 1) with
      | nil =>
          cases decrement with
          | false =>
              exact ih false top htop nofun
          | true =>
              obtain rfl := hdecrement rfl
              refine ih true priority (fun other hother => ?_) fun _ => rfl
              rcases Nat.le_succ_iff.mp (htop other hother) with hle | rfl
              · exact hle
              · exact absurd hlist hother
      | cons first rest =>
          dsimp only
          cases (first :: rest).find? (selectable setup core state) with
          | some chosen => exact htop level hready
          | none => exact ih false top htop nofun

theorem pends_yieldForEvicted (setup : Setup cores) (here : Fin cores)
    (previous : TaskHandle) (state : State cores) :
    Pends state (yieldForEvicted setup here previous state) := by
  rw [yieldForEvicted]
  split
  · split
    · exact .refl state
    · exact pends_prvYieldCore here _ state
  · exact .refl state

/-- A ready task that is pinned to the core can be selected there. -/
theorem selectable_of_pinned (hwell : Wellformed setup state)
    (hpinned : setup.Pinned task core) :
    selectable setup core state task = true := by
  have hallows := (hpinned core).mpr rfl
  rw [selectable, decide_eq_true_iff]
  refine ⟨?_, hallows⟩
  by_cases hrun : state.runState task = .notRunning
  · exact .inl hrun
  · obtain ⟨other, rfl⟩ := hwell.owner task hrun
    rw [(hpinned other).mp (hwell.allowed other)]
    exact .inr rfl

/-- The selected task becomes the current one of the core. -/
def swapIn (core : Fin cores) (task : TaskHandle) (state : State cores) :
    State cores :=
  { state with
    current := Function.update state.current core task
    runState := Function.update
      (Function.update state.runState (state.current core) .notRunning) task
      (.running core) }

section SwapIn

variable (hwell : Wellformed setup state)
  (hselect : selectable setup core state task = true)

include hselect in
theorem current_of_selectable (hrun : state.runState task ≠ .notRunning) :
    task = state.current core := by
  rw [selectable, decide_eq_true_iff] at hselect
  exact hselect.1.resolve_left hrun

include hwell hselect

/-- No other core runs the task. -/
theorem current_ne_of_selectable {other : Fin cores} (hother : other ≠ core) :
    state.current other ≠ task := by
  rintro rfl
  have hrun : state.runState (state.current other) ≠ .notRunning := by
    rcases hwell.running other with hrun | hrun <;> rw [hrun] <;> nofun
  exact hother (hwell.injective (current_of_selectable hselect hrun))

theorem runState_swapIn_of_ne {other : Fin cores} (hother : other ≠ core) :
    (swapIn core task state).runState (state.current other) =
      state.runState (state.current other) := by
  have hprevious : state.current other ≠ state.current core := fun heq =>
    hother (hwell.injective heq)
  change Function.update (Function.update state.runState _ _) _ _ _ = _
  rw [Function.update_of_ne (current_ne_of_selectable hwell hselect hother),
    Function.update_of_ne hprevious]

theorem wellformed_swapIn : Wellformed setup (swapIn core task state) where
  running other := by
    by_cases hother : other = core
    · subst hother
      left
      change Function.update _ task _ (Function.update state.current _ _ _) = _
      rw [Function.update_self, Function.update_self]
    · have hcurrent : (swapIn core task state).current other =
          state.current other := Function.update_of_ne hother ..
      rw [hcurrent, runState_swapIn_of_ne hwell hselect hother]
      exact hwell.running other
  owner other hrun := by
    by_cases htask : other = task
    · subst htask
      exact ⟨core, Function.update_self ..⟩
    · change Function.update (Function.update state.runState _ _) _ _ other ≠ _
        at hrun
      rw [Function.update_of_ne htask] at hrun
      by_cases hprevious : other = state.current core
      · subst hprevious
        rw [Function.update_self] at hrun
        exact absurd rfl hrun
      · rw [Function.update_of_ne hprevious] at hrun
        obtain ⟨owner, rfl⟩ := hwell.owner other hrun
        have howner : owner ≠ core := fun heq => hprevious (heq ▸ rfl)
        exact ⟨owner, Function.update_of_ne howner ..⟩
  injective first second hsame := by
    change Function.update state.current core task first =
      Function.update state.current core task second at hsame
    by_cases hfirst : first = core
    · by_cases hsecond : second = core
      · rw [hfirst, hsecond]
      · rw [hfirst, Function.update_self, Function.update_of_ne hsecond] at hsame
        exact absurd hsame.symm (current_ne_of_selectable hwell hselect hsecond)
    · by_cases hsecond : second = core
      · rw [hsecond, Function.update_self, Function.update_of_ne hfirst] at hsame
        exact absurd hsame (current_ne_of_selectable hwell hselect hfirst)
      · rw [Function.update_of_ne hfirst, Function.update_of_ne hsecond] at hsame
        exact hwell.injective hsame
  allowed other := by
    by_cases hother : other = core
    · subst hother
      change setup.allows (Function.update state.current _ _ _) _ = true
      rw [Function.update_self]
      rw [selectable, decide_eq_true_iff] at hselect
      exact hselect.2
    · change setup.allows (Function.update state.current _ _ _) _ = true
      rw [Function.update_of_ne hother]
      exact hwell.allowed other
  idle := hwell.idle
  priority := hwell.priority
  top := hwell.top

theorem dispatchedAt_swapIn_of_ne {other : Fin cores} (hother : other ≠ core)
    (hdispatched : DispatchedAt setup state other) :
    DispatchedAt setup (swapIn core task state) other := by
  have hcurrent : (swapIn core task state).current other =
      state.current other := Function.update_of_ne hother ..
  intro hpending
  rw [hcurrent]
  apply hdispatched
  rintro (hflag | hyield)
  · exact hpending (.inl hflag)
  · refine hpending (.inr ?_)
    rw [hcurrent, runState_swapIn_of_ne hwell hselect hother]
    exact hyield

end SwapIn

/-- The selection leaves the core with the selected task, and asks other cores
to yield at most. -/
theorem prvSelect_of_some {chosen : TaskHandle}
    (hfound : (selectLoop setup core (rotate setup core state)
      state.topReady true state.topReady).1 = some chosen)
    (hselect : selectable setup core (rotate setup core state) chosen = true) :
    Pends
      (swapIn core chosen { rotate setup core state with
        topReady := (selectLoop setup core (rotate setup core state)
          state.topReady true state.topReady).2 })
      (prvSelectHighestPriorityTask setup core state) := by
  rw [prvSelectHighestPriorityTask]
  simp only [topReady_rotate, hfound]
  split
  · exact pends_yieldForEvicted setup core _ _
  · rename_i hrun
    have hcurrent := current_of_selectable hselect hrun
    subst hcurrent
    have hswap : swapIn core ((rotate setup core state).current core)
        { rotate setup core state with
          topReady := (selectLoop setup core (rotate setup core state)
            state.topReady true state.topReady).2 } =
        { rotate setup core state with
          topReady := (selectLoop setup core (rotate setup core state)
            state.topReady true state.topReady).2
          runState := Function.update (rotate setup core state).runState
            ((rotate setup core state).current core) (.running core) } := by
      rw [swapIn]
      simp
    rw [hswap]
    exact .refl _

/-- There is an idle task no other core runs, so the loop finds a task. -/
theorem selectLoop_ne_none (hwell : Wellformed setup state) (core : Fin cores) :
    (selectLoop setup core state state.topReady true state.topReady).1 ≠
      none := by
  intro hnone
  have hskip := (selectLoop_spec setup core state state.topReady true
    state.topReady).2 hnone 0 (Nat.zero_le _)
  -- every idle task runs on a core other than this one
  have helsewhere : ∀ idle, ∃ other, state.current other = setup.idle idle ∧
      other ≠ core := by
    intro idle
    have hunselected := hskip _ (hwell.idle idle)
    rw [selectable, decide_eq_false_iff_not] at hunselected
    have hallows : setup.allows (setup.idle idle) core = true :=
      setup.idle_mask idle core
    have hrun : state.runState (setup.idle idle) ≠ .notRunning := fun hrun =>
      hunselected ⟨.inl hrun, hallows⟩
    obtain ⟨other, hother⟩ := hwell.owner _ hrun
    refine ⟨other, hother, ?_⟩
    rintro rfl
    exact hunselected ⟨.inr hother.symm, hallows⟩
  choose runs hruns hne using helsewhere
  have hinjective : Function.Injective runs := by
    intro first second hsame
    apply setup.idle_injective
    rw [← hruns first, ← hruns second, hsame]
  obtain ⟨idle, hidle⟩ := Finite.injective_iff_surjective.mp hinjective core
  exact hne idle hidle

/-- The selection restores the guarantee on its core, and keeps it on the
others. -/
theorem prvSelectHighestPriorityTask_dispatched (hwell : Wellformed setup state)
    (hothers : ∀ other, other ≠ core → DispatchedAt setup state other) :
    Wellformed setup (prvSelectHighestPriorityTask setup core state) ∧
      Dispatched setup (prvSelectHighestPriorityTask setup core state) := by
  have hrotated := wellformed_rotate hwell core
  have hothers' : ∀ other, other ≠ core →
      DispatchedAt setup (rotate setup core state) other := by
    intro other hother hpending
    simp only [State.Ready, mem_ready_rotate, current_rotate]
    refine hothers other hother fun hbefore => hpending ?_
    rwa [State.pending, current_rotate, runState_rotate, yieldPending_rotate]
  have htop : ∀ level, (rotate setup core state).ready level ≠ [] →
      level ≤ state.topReady := by
    have htop := hrotated.top
    rwa [topReady_rotate] at htop
  have hlowered := selectLoop_top setup core (rotate setup core state)
    state.topReady true state.topReady htop fun _ => rfl
  have hwell' : Wellformed setup { rotate setup core state with
      topReady := (selectLoop setup core (rotate setup core state)
        state.topReady true state.topReady).2 } :=
    { hrotated with top := hlowered }
  cases hfound : (selectLoop setup core (rotate setup core state)
      state.topReady true state.topReady).1 with
  | none =>
      have hsome := selectLoop_ne_none hrotated core
      rw [topReady_rotate] at hsome
      exact absurd hfound hsome
  | some chosen =>
      obtain ⟨level, hlevel, hready, hselect, habove⟩ := (selectLoop_spec setup
        core (rotate setup core state) state.topReady true
        state.topReady).1 chosen hfound
      have hpriority := hrotated.priority level chosen hready
      have hpends := prvSelect_of_some hfound hselect
      refine ⟨hpends.wellformed (wellformed_swapIn hwell' hselect),
        hpends.dispatched fun other => ?_⟩
      by_cases hother : other = core
      · subst hother
        intro _
        have hcurrent : (swapIn other chosen { rotate setup other state with
            topReady := (selectLoop setup other (rotate setup other state)
              state.topReady true state.topReady).2 }).current other = chosen :=
          Function.update_self ..
        rw [hcurrent]
        have hchosen : chosen ∈ (rotate setup other state).ready
            (setup.tcb chosen).uxPriority := hpriority.symm ▸ hready
        refine ⟨hchosen, fun task htask hpinned => ?_⟩
        rw [hpriority]
        by_contra hless
        have hskip := habove _ (not_le.mp hless)
          (htop _ (List.ne_nil_of_mem htask)) task htask
        rw [selectable_of_pinned hrotated hpinned] at hskip
        cases hskip
      · exact dispatchedAt_swapIn_of_ne hwell' hselect hother
          (hothers' other hother)

/-! ## Every event -/

theorem pends_timeSlice (setup : Setup cores) (here : Fin cores)
    (state : State cores) : Pends state (timeSlice setup here state) := by
  have hfold : ∀ (cores' : List (Fin cores)) (state : State cores),
      Pends state (cores'.foldl (fun state core =>
        if state.yieldPending core = true ∧ core ≠ here then
          prvYieldCore here core state
        else state) state) := by
    intro cores'
    induction cores' with
    | nil => exact Pends.refl
    | cons core cores' ih =>
        intro state
        rw [List.foldl_cons]
        refine Pends.trans ?_ (ih _)
        split
        · exact pends_prvYieldCore here core state
        · exact .refl state
  rw [timeSlice]
  refine Pends.trans ?_ (hfold _ _)
  exact ⟨rfl, rfl, rfl, fun core hpending => by simp [hpending],
    fun _ => .inl rfl⟩

theorem pends_yieldPending (core : Fin cores) (state : State cores) :
    Pends state { state with
      yieldPending := Function.update state.yieldPending core true } := by
  refine ⟨rfl, rfl, rfl, fun other hother => ?_, fun _ => .inl rfl⟩
  by_cases hcore : other = core
  · rw [hcore]
    exact Function.update_self ..
  · exact (Function.update_of_ne hcore ..).trans hother

/-- The running task leaves its ready list and its core has to yield. -/
theorem block_dispatched (hwell : Wellformed setup state)
    (hdispatched : Dispatched setup state)
    (hbusy : (setup.tcb (state.current core)).isIdle = false) :
    let priority := (setup.tcb (state.current core)).uxPriority
    let state' := { state with
      ready := Function.update state.ready priority
        ((state.ready priority).erase (state.current core))
      yieldPending := Function.update state.yieldPending core true }
    Wellformed setup state' ∧ Dispatched setup state' := by
  intro priority state'
  have hsub : ∀ level, ∀ other ∈ state'.ready level,
      other ∈ state.ready level := by
    intro level other hother
    change other ∈ Function.update state.ready _ _ level at hother
    by_cases hlevel : level = priority
    · rw [hlevel, Function.update_self] at hother
      rw [hlevel]
      exact List.mem_of_mem_erase hother
    · rwa [Function.update_of_ne hlevel] at hother
  have hkept : ∀ level, ∀ other ∈ state.ready level,
      other ≠ state.current core → other ∈ state'.ready level := by
    intro level other hother hne
    change other ∈ Function.update state.ready _ _ level
    by_cases hlevel : level = priority
    · rw [hlevel, Function.update_self]
      exact (List.mem_erase_of_ne hne).mpr (hlevel ▸ hother)
    · rwa [Function.update_of_ne hlevel]
  constructor
  · refine ⟨hwell.running, hwell.owner, hwell.injective, hwell.allowed,
      fun other => ?_,
      fun level other hother => hwell.priority level other (hsub level other hother),
      fun level hready => ?_⟩
    · apply hkept 0 _ (hwell.idle other)
      intro heq
      rw [← heq, setup.idle_isIdle] at hbusy
      cases hbusy
    · obtain ⟨other, hother⟩ := List.exists_mem_of_ne_nil _ hready
      exact hwell.top level (List.ne_nil_of_mem (hsub level other hother))
  · intro other hpending
    have hne : other ≠ core := by
      rintro rfl
      exact hpending (.inl (Function.update_self ..))
    have hbefore : ¬state.pending other := by
      rintro (hflag | hyield)
      · exact hpending (.inl ((Function.update_of_ne hne ..).trans hflag))
      · exact hpending (.inr hyield)
    obtain ⟨hready, hhighest⟩ := hdispatched other hbefore
    refine ⟨hkept _ _ hready fun heq => hne (hwell.injective heq), ?_⟩
    intro task htask hpinned
    exact hhighest task (hsub _ task htask) hpinned

theorem wake_dispatched (hwell : Wellformed setup state)
    (hdispatched : Dispatched setup state) (here : Fin cores)
    (task : TaskHandle) :
    Wellformed setup (prvYieldForTask setup here task
        (prvAddTaskToReadyList setup task state)) ∧
      Dispatched setup (prvYieldForTask setup here task
        (prvAddTaskToReadyList setup task state)) := by
  have hadded := wellformed_prvAddTaskToReadyList hwell task
  have hpends := pends_prvYieldForTask setup here task
    (prvAddTaskToReadyList setup task state)
  refine ⟨hpends.wellformed hadded, ?_⟩
  intro core hpending
  have hbefore : ¬state.pending core := fun hbefore =>
    hpending (hpends.pending hbefore)
  obtain ⟨hready, hhighest⟩ := hdispatched core hbefore
  simp only [State.Ready, hpends.ready, hpends.current]
  refine ⟨mem_ready_prvAddTaskToReadyList hready, ?_⟩
  intro other hother hpinned
  by_cases hsame : other = task
  · subst hsame
    exact prvYieldForTask_dispatched hadded hpinned hpending
  · refine hhighest other ?_ hpinned
    change other ∈ Function.update state.ready _ _ _ at hother
    rw [State.Ready]
    by_cases hlevel : (setup.tcb other).uxPriority = (setup.tcb task).uxPriority
    · rw [hlevel, Function.update_self, List.mem_append, List.mem_singleton]
        at hother
      rw [hlevel]
      exact hother.resolve_right hsame
    · rwa [Function.update_of_ne hlevel] at hother

theorem step_dispatched (hwell : Wellformed setup state)
    (hdispatched : Dispatched setup state)
    (hstep : step setup state action = some state') :
    Wellformed setup state' ∧ Dispatched setup state' := by
  cases action with
  | wake here task =>
      rw [step] at hstep
      split at hstep
      · obtain rfl := Option.some.inj hstep
        exact wake_dispatched hwell hdispatched here task
      · cases hstep
  | block core =>
      rw [step] at hstep
      split at hstep
      · rename_i hblock
        obtain rfl := Option.some.inj hstep
        exact block_dispatched hwell hdispatched hblock.2
      · cases hstep
  | yield core =>
      obtain rfl := Option.some.inj hstep
      have hpends := pends_yieldPending core state
      exact ⟨hpends.wellformed hwell, hpends.dispatched hdispatched⟩
  | tick here =>
      obtain rfl := Option.some.inj hstep
      have hpends := pends_timeSlice setup here state
      exact ⟨hpends.wellformed hwell, hpends.dispatched hdispatched⟩
  | switch core =>
      obtain rfl := Option.some.inj hstep
      rw [vTaskSwitchContext]
      apply prvSelectHighestPriorityTask_dispatched
      · exact { hwell with }
      · -- only the flag of this core has changed
        intro other hother hpending
        refine hdispatched other fun hbefore => hpending ?_
        rcases hbefore with hflag | hyield
        · left
          exact (Function.update_of_ne hother ..).trans hflag
        · exact .inr hyield

/-- Exactly the idle tasks are running at the start, each on its own core. -/
theorem startRunState_eq_running (setup : Setup cores) (core : Fin cores) :
    setup.startRunState (setup.idle core) = .running core := by
  rw [Setup.startRunState]
  cases hfind : (List.finRange cores).find? fun other =>
      setup.idle other = setup.idle core with
  | none =>
      have hne := List.find?_eq_none.mp hfind core (List.mem_finRange core)
      simp at hne
  | some other =>
      have heq := List.find?_some hfind
      rw [decide_eq_true_iff] at heq
      rw [setup.idle_injective heq]

theorem idle_of_startRunState (hrun : setup.startRunState task ≠ .notRunning) :
    ∃ core, setup.idle core = task := by
  rw [Setup.startRunState] at hrun
  cases hfind : (List.finRange cores).find? fun core =>
      setup.idle core = task with
  | none =>
      rw [hfind] at hrun
      exact absurd rfl hrun
  | some core =>
      have hcore := List.find?_some hfind
      rw [decide_eq_true_iff] at hcore
      exact ⟨core, hcore⟩

theorem wellformed_start (setup : Setup cores) :
    Wellformed setup (machine setup).start where
  running core := .inl (startRunState_eq_running setup core)
  owner task hrun := idle_of_startRunState hrun
  injective := setup.idle_injective
  allowed core := setup.idle_mask core core
  idle core := by
    apply List.mem_filter.mpr
    exact ⟨setup.idle_created core, decide_eq_true (setup.idle_priority core)⟩
  priority priority task hready := by
    simpa using (List.mem_filter.mp hready).2
  top priority hready := by
    obtain ⟨task, htask⟩ := List.exists_mem_of_ne_nil _ hready
    obtain ⟨hcreated, hpriority⟩ := List.mem_filter.mp htask
    rw [decide_eq_true_iff] at hpriority
    rw [← hpriority]
    exact List.le_max_of_le' 0 (List.mem_map_of_mem hcreated) le_rfl

/-- In every state the kernel reaches, a core that has no yield to serve runs a
task of the highest kernel priority among the ready ones pinned to it. -/
theorem dispatched_of_reachable (hreach : (machine setup).Reachable state) :
    Wellformed setup state ∧ Dispatched setup state := by
  apply hreach.invariant
    (fun state => Wellformed setup state ∧ Dispatched setup state)
  · refine ⟨wellformed_start setup, fun core hpending => ?_⟩
    exact absurd (.inl rfl) hpending
  · intro state action state' _ _ hstep ⟨hwell, hdispatched⟩
    exact step_dispatched hwell hdispatched hstep

end PicoSched.Kernel
