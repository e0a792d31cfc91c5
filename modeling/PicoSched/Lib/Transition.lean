import Mathlib.Data.Nat.Notation
import Mathlib.Tactic.TypeStar

/-!
# Runs of a machine

A machine takes one action at a time, in any order; an action may be disabled.
The runs considered can be restricted to steps that meet a condition on the
state before the step and on the action.
-/

namespace PicoSched.Transition

structure Machine (σ α : Type*) where
  start : σ
  step : σ → α → Option σ

variable {σ α : Type*}

namespace Machine

/-- The states met by the runs all of whose steps are permitted. -/
inductive Reaches (machine : Machine σ α) (permits : σ → α → Prop) : σ → Prop
  | start : Reaches machine permits machine.start
  | next {state after : σ} {action : α}
      (hreach : Reaches machine permits state)
      (hpermits : permits state action)
      (hstep : machine.step state action = some after) :
      Reaches machine permits after

/-- The states met by any run. -/
def Reachable (machine : Machine σ α) (state : σ) : Prop :=
  machine.Reaches (fun _ _ => True) state

variable {machine : Machine σ α} {permits : σ → α → Prop} {state : σ}

theorem Reaches.reachable (hreach : machine.Reaches permits state) :
    machine.Reachable state := by
  induction hreach with
  | start => exact .start
  | next _ _ hstep ih => exact .next ih trivial hstep

/-- The invariant rule.  A step may use that its state is reachable. -/
theorem Reaches.invariant (hreach : machine.Reaches permits state)
    (invariant : σ → Prop) (hstart : invariant machine.start)
    (hnext : ∀ state action after, machine.Reachable state →
      permits state action → machine.step state action = some after →
        invariant state → invariant after) : invariant state := by
  induction hreach with
  | start => exact hstart
  | next hreach hpermits hstep ih =>
      exact hnext _ _ _ hreach.reachable hpermits hstep ih

/-- `actions`, the latest first, lead from the start to the state. -/
inductive Runs (machine : Machine σ α) : List α → σ → Prop
  | nil : Runs machine [] machine.start
  | cons {state after : σ} {action : α} {actions : List α}
      (hruns : Runs machine actions state)
      (hstep : machine.step state action = some after) :
      Runs machine (action :: actions) after

theorem Runs.reachable {actions : List α} (hruns : machine.Runs actions state) :
    machine.Reachable state := by
  induction hruns with
  | nil => exact .start
  | cons _ hstep ih => exact .next ih trivial hstep

theorem Reachable.runs (hreach : machine.Reachable state) :
    ∃ actions, machine.Runs actions state := by
  induction hreach with
  | start => exact ⟨[], .nil⟩
  | next _ _ hstep ih =>
      obtain ⟨actions, hruns⟩ := ih
      exact ⟨_, .cons hruns hstep⟩

/-- The state after the actions, the latest first. -/
def after (machine : Machine σ α) : List α → Option σ
  | [] => some machine.start
  | action :: actions =>
      match machine.after actions with
      | none => none
      | some state => machine.step state action

theorem exists_runs (machine : Machine σ α) (actions : List α) (holds : σ → Bool)
    (hafter : (machine.after actions).any holds = true) :
    ∃ state, machine.Runs actions state ∧ holds state = true := by
  have hruns : ∀ {actions : List α} {state : σ},
      machine.after actions = some state → machine.Runs actions state := by
    intro actions
    induction actions with
    | nil =>
        rintro _ ⟨⟩
        exact .nil
    | cons action actions ih =>
        intro state hafter
        rw [Machine.after] at hafter
        split at hafter
        · cases hafter
        · rename_i before hbefore
          exact .cons (ih hbefore) hafter
  cases hstate : machine.after actions with
  | none =>
      rw [hstate] at hafter
      cases hafter
  | some state =>
      rw [hstate] at hafter
      exact ⟨state, hruns hstate, hafter⟩

/-- The actions determine the state. -/
theorem Runs.unique {actions : List α} {other : σ}
    (hruns : machine.Runs actions state) (hruns' : machine.Runs actions other) :
    state = other := by
  induction hruns generalizing other with
  | nil =>
      cases hruns'
      rfl
  | cons _ hstep ih =>
      cases hruns' with
      | cons hruns' hstep' =>
          rw [ih hruns', hstep'] at hstep
          exact (Option.some.inj hstep).symm

/-- The simulation rule: a machine that can follow every step of another one
takes the same actions. -/
theorem Runs.simulation {τ : Type*} {other : Machine τ α}
    (related : σ → τ → Prop) (hstart : related machine.start other.start)
    (hnext : ∀ left right action after, machine.Reachable left →
      related left right → machine.step left action = some after →
        ∃ after', other.step right action = some after' ∧ related after after')
    {actions : List α} (hruns : machine.Runs actions state) :
    ∃ state', other.Runs actions state' ∧ related state state' := by
  induction hruns with
  | nil => exact ⟨other.start, .nil, hstart⟩
  | cons hruns hstep ih =>
      obtain ⟨state', hruns', hrelated⟩ := ih
      obtain ⟨after', hstep', hafter⟩ :=
        hnext _ _ _ _ hruns.reachable hrelated hstep
      exact ⟨after', .cons hruns' hstep', hafter⟩

/-- Machines whose steps are related and enabled together take the same
actions. -/
theorem Runs.bisimulation {τ : Type*} (machine : Machine σ α)
    (other : Machine τ α)
    (related : σ → τ → Prop) (hstart : related machine.start other.start)
    (hnext : ∀ left right action, related left right →
      Option.Rel related (machine.step left action) (other.step right action))
    (actions : List α) :
    (∀ state, machine.Runs actions state →
      ∃ state', other.Runs actions state' ∧ related state state') ∧
    ∀ state', other.Runs actions state' →
      ∃ state, machine.Runs actions state ∧ related state state' := by
  constructor
  · intro state hruns
    refine hruns.simulation related hstart ?_
    intro left right action after _ hrelated hstep
    have hrel := hnext left right action hrelated
    rw [hstep] at hrel
    generalize other.step right action = result at hrel ⊢
    cases hrel with
    | some hafter => exact ⟨_, rfl, hafter⟩
  · intro state' hruns
    refine hruns.simulation (fun right left => related left right) hstart ?_
    intro right left action after _ hrelated hstep
    have hrel := hnext left right action hrelated
    rw [hstep] at hrel
    generalize machine.step left action = result at hrel ⊢
    cases hrel with
    | some hafter => exact ⟨_, rfl, hafter⟩

/-- The machine that takes permitted steps only. -/
def restrict (machine : Machine σ α) (permits : σ → α → Prop)
    [∀ state action, Decidable (permits state action)] : Machine σ α where
  start := machine.start
  step state action :=
    if permits state action then machine.step state action else none

theorem Runs.reaches [∀ state action, Decidable (permits state action)]
    {actions : List α} (hruns : (machine.restrict permits).Runs actions state) :
    machine.Reaches permits state := by
  induction hruns with
  | nil => exact .start
  | cons _ hstep ih =>
      obtain ⟨hpermits, hstep⟩ := Option.ite_none_right_eq_some.mp hstep
      exact .next ih hpermits hstep

theorem Reaches.runs [∀ state action, Decidable (permits state action)]
    (hreach : machine.Reaches permits state) :
    ∃ actions, (machine.restrict permits).Runs actions state := by
  induction hreach with
  | start => exact ⟨[], .nil⟩
  | next _ hpermits hstep ih =>
      obtain ⟨actions, hruns⟩ := ih
      exact ⟨_, .cons hruns ((if_pos hpermits).trans hstep)⟩

/-- The state after a list of actions, if each is permitted and enabled. -/
def exec (machine : Machine σ α) (permits : σ → α → Prop)
    [∀ state action, Decidable (permits state action)] :
    List α → σ → Option σ
  | [], state => some state
  | action :: actions, state =>
      if permits state action then
        match machine.step state action with
        | none => none
        | some after => exec machine permits actions after
      else none

theorem reaches_of_exec_from
    [∀ state action, Decidable (permits state action)] {actions : List α}
    {before : σ} (hbefore : machine.Reaches permits before)
    (hexec : machine.exec permits actions before = some state) :
    machine.Reaches permits state := by
  induction actions generalizing before with
  | nil =>
      cases hexec
      exact hbefore
  | cons action actions ih =>
      rw [exec] at hexec
      split at hexec
      · rename_i hpermits
        split at hexec
        · cases hexec
        · rename_i after hstep
          exact ih (.next hbefore hpermits hstep) hexec
      · cases hexec

theorem reaches_of_exec
    [∀ state action, Decidable (permits state action)] {actions : List α}
    (hexec : machine.exec permits actions machine.start = some state) :
    machine.Reaches permits state :=
  reaches_of_exec_from .start hexec

theorem exists_reaches_of_exec
    [∀ state action, Decidable (permits state action)] (actions : List α)
    (holds : σ → Bool)
    (hexec : (machine.exec permits actions machine.start).any holds = true) :
    ∃ state, machine.Reaches permits state ∧ holds state = true := by
  cases hfinal : machine.exec permits actions machine.start with
  | none =>
      rw [hfinal] at hexec
      cases hexec
  | some state =>
      rw [hfinal] at hexec
      exact ⟨state, reaches_of_exec hfinal, hexec⟩

end Machine

end PicoSched.Transition
