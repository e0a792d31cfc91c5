import Mathlib.Data.Nat.Notation
import Mathlib.Tactic.TypeStar

/-!
# Loops with an early exit

A `while` loop whose body may finish an iteration, leave the loop early or
fail.  The states at the loop head form an inductive set, which carries the
invariant rule; running the loop with fuel is related to that set, and a
measure that every iteration lowers shows the fuel is enough.
-/

namespace PicoSched.Loop

/-- How an iteration that does not fail ends. -/
inductive Flow (σ : Type*) where
  | next (state : σ)
  | leave (state : σ)

/-- How a loop ends: its guard turned false, the body left it, the body
failed, or the fuel of the run was used up. -/
inductive Outcome (σ φ : Type*) where
  | done (state : σ)
  | left (state : σ)
  | fault (error : φ)
  | outOfFuel

/-- The state a loop ends in when its guard turns false. -/
def Outcome.final {σ φ : Type*} : Outcome σ φ → Option σ
  | .done state => some state
  | _ => none

/-- The error a loop ends with. -/
def Outcome.faults {σ φ : Type*} : Outcome σ φ → Option φ
  | .fault error => some error
  | _ => none

theorem Outcome.eq_done_of_final {σ φ : Type*} {outcome : Outcome σ φ}
    {state : σ} (hfinal : outcome.final = some state) :
    outcome = .done state := by
  cases outcome with
  | done final => rw [Option.some.inj hfinal]
  | left _ => cases hfinal
  | fault _ => cases hfinal
  | outOfFuel => cases hfinal

structure While (σ φ : Type*) where
  guard : σ → Bool
  body : σ → Except φ (Flow σ)

variable {σ φ τ : Type*}

namespace While

def run (loop : While σ φ) : ℕ → σ → Outcome σ φ
  | 0, state => if loop.guard state then .outOfFuel else .done state
  | fuel + 1, state =>
      if loop.guard state then
        match loop.body state with
        | .error error => .fault error
        | .ok (.leave after) => .left after
        | .ok (.next after) => loop.run fuel after
      else .done state

/-- The states met at the head of the loop when it is entered at `start`. -/
inductive Head (loop : While σ φ) (start : σ) : σ → Prop
  | start : Head loop start start
  | next {state after : σ} (hhead : Head loop start state)
      (hguard : loop.guard state = true)
      (hbody : loop.body state = .ok (.next after)) : Head loop start after

/-- The states in which the loop is left early. -/
inductive Exit (loop : While σ φ) (start : σ) : σ → Prop
  | leave {state after : σ} (hhead : Head loop start state)
      (hguard : loop.guard state = true)
      (hbody : loop.body state = .ok (.leave after)) : Exit loop start after

variable {loop : While σ φ} {start : σ}

/-- The invariant rule. -/
theorem Head.invariant {invariant : σ → Prop} (hstart : invariant start)
    (hnext : ∀ state after, invariant state → loop.guard state = true →
      loop.body state = .ok (.next after) → invariant after)
    {state : σ} (hhead : loop.Head start state) : invariant state := by
  induction hhead with
  | start => exact hstart
  | next _ hguard hbody ih => exact hnext _ _ ih hguard hbody

theorem Head.trans {middle state : σ} (hfirst : loop.Head start middle)
    (hsecond : loop.Head middle state) : loop.Head start state := by
  induction hsecond with
  | start => exact hfirst
  | next _ hguard hbody ih => exact .next ih hguard hbody

theorem Head.of_next {after state : σ} (hguard : loop.guard start = true)
    (hbody : loop.body start = .ok (.next after))
    (hhead : loop.Head after state) : loop.Head start state :=
  (Head.next .start hguard hbody).trans hhead

theorem run_eq_done {fuel : ℕ} {final : σ}
    (hrun : loop.run fuel start = .done final) :
    loop.Head start final ∧ loop.guard final = false := by
  induction fuel generalizing start with
  | zero =>
      by_cases hguard : loop.guard start = true
      · simp [run, hguard] at hrun
      · simp only [run, hguard, Bool.false_eq_true, if_false,
          Outcome.done.injEq] at hrun
        subst hrun
        exact ⟨.start, by simpa using hguard⟩
  | succ fuel ih =>
      by_cases hguard : loop.guard start = true
      · simp only [run, hguard, if_true] at hrun
        split at hrun
        · cases hrun
        · cases hrun
        · rename_i after hbody
          obtain ⟨hhead, hfinal⟩ := ih hrun
          exact ⟨.of_next hguard hbody hhead, hfinal⟩
      · simp only [run, hguard, Bool.false_eq_true, if_false,
          Outcome.done.injEq] at hrun
        subst hrun
        exact ⟨.start, by simpa using hguard⟩

theorem run_eq_left {fuel : ℕ} {final : σ}
    (hrun : loop.run fuel start = .left final) : loop.Exit start final := by
  induction fuel generalizing start with
  | zero =>
      by_cases hguard : loop.guard start = true <;> simp [run, hguard] at hrun
  | succ fuel ih =>
      by_cases hguard : loop.guard start = true
      · simp only [run, hguard, if_true] at hrun
        split at hrun
        · cases hrun
        · rename_i after hbody
          cases hrun
          exact .leave .start hguard hbody
        · rename_i after hbody
          obtain ⟨hhead, hguard', hbody'⟩ := ih hrun
          exact .leave (.of_next hguard hbody hhead) hguard' hbody'
      · simp [run, hguard] at hrun

theorem run_eq_fault {fuel : ℕ} {error : φ}
    (hrun : loop.run fuel start = .fault error) :
    ∃ state, loop.Head start state ∧ loop.guard state = true ∧
      loop.body state = .error error := by
  induction fuel generalizing start with
  | zero =>
      by_cases hguard : loop.guard start = true <;> simp [run, hguard] at hrun
  | succ fuel ih =>
      by_cases hguard : loop.guard start = true
      · simp only [run, hguard, if_true] at hrun
        split at hrun
        · rename_i error' hbody
          cases hrun
          exact ⟨start, .start, hguard, hbody⟩
        · cases hrun
        · rename_i after hbody
          obtain ⟨state, hhead, hguard', hbody'⟩ := ih hrun
          exact ⟨state, .of_next hguard hbody hhead, hguard', hbody'⟩
      · simp [run, hguard] at hrun

/-- The progress rule: a loop in which every iteration goes on to the next
ends by its guard. -/
theorem run_done_of_proceeds {fuel : ℕ}
    (hproceeds : ∀ state, loop.Head start state → loop.guard state = true →
      ∃ after, loop.body state = .ok (.next after))
    (hfuel : loop.run fuel start ≠ .outOfFuel) :
    ∃ final, loop.run fuel start = .done final := by
  cases hrun : loop.run fuel start with
  | done final => exact ⟨final, rfl⟩
  | left final =>
      obtain ⟨hhead, hguard, hbody⟩ := run_eq_left hrun
      obtain ⟨after, hnext⟩ := hproceeds _ hhead hguard
      rw [hnext] at hbody
      cases hbody
  | fault error =>
      obtain ⟨state, hhead, hguard, hbody⟩ := run_eq_fault hrun
      obtain ⟨after, hnext⟩ := hproceeds state hhead hguard
      rw [hnext] at hbody
      cases hbody
  | outOfFuel => exact absurd hrun hfuel

/-- The variant rule: fuel that reaches the measure of the entry state is
never used up. -/
theorem run_ne_outOfFuel (invariant : σ → Prop) (measure : σ → ℕ)
    (hnext : ∀ state after, invariant state → loop.guard state = true →
      loop.body state = .ok (.next after) →
        invariant after ∧ measure after < measure state)
    {fuel : ℕ} (hstart : invariant start) (hguard : ∀ state, invariant state →
      measure state = 0 → loop.guard state = false)
    (hfuel : measure start ≤ fuel) :
    loop.run fuel start ≠ .outOfFuel := by
  induction fuel generalizing start with
  | zero =>
      have hfinal := hguard start hstart (Nat.le_zero.mp hfuel)
      simp [run, hfinal]
  | succ fuel ih =>
      by_cases htrue : loop.guard start = true
      · simp only [run, htrue, if_true]
        split
        · simp
        · simp
        · rename_i after hbody
          obtain ⟨hafter, hless⟩ := hnext _ _ hstart htrue hbody
          exact ih hafter (by omega)
      · simp [run, htrue]

/-- Two bodies that keep a relation between their states take the loops
through related heads, so one finishes exactly when the other does. -/
theorem run_done_of_related (other : While τ φ) (related : σ → τ → Prop)
    (hguard : ∀ left right, related left right →
      loop.guard left = other.guard right)
    (hbody : ∀ left right after, related left right →
      loop.guard left = true → loop.body left = .ok (.next after) →
        ∃ after', other.body right = .ok (.next after') ∧ related after after')
    {fuel : ℕ} {final : σ} {start' : τ} (hstart : related start start')
    (hrun : loop.run fuel start = .done final) :
    ∃ final', other.run fuel start' = .done final' ∧ related final final' := by
  induction fuel generalizing start start' with
  | zero =>
      have hsame := hguard _ _ hstart
      by_cases htrue : loop.guard start = true
      · simp [run, htrue] at hrun
      · rw [Bool.not_eq_true] at htrue
        rw [htrue] at hsame
        simp only [run, htrue, Bool.false_eq_true, if_false,
          Outcome.done.injEq] at hrun
        subst hrun
        exact ⟨start', by simp [run, ← hsame], hstart⟩
  | succ fuel ih =>
      have hsame := hguard _ _ hstart
      by_cases htrue : loop.guard start = true
      · simp only [run, htrue, if_true] at hrun
        split at hrun
        · cases hrun
        · cases hrun
        · rename_i after hafter
          obtain ⟨after', hother, hrelated⟩ := hbody _ _ _ hstart htrue hafter
          obtain ⟨final', hfinal, hlast⟩ := ih hrelated hrun
          refine ⟨final', ?_, hlast⟩
          simpa [run, ← hsame, htrue, hother] using hfinal
      · rw [Bool.not_eq_true] at htrue
        rw [htrue] at hsame
        simp only [run, htrue, Bool.false_eq_true, if_false,
          Outcome.done.injEq] at hrun
        subst hrun
        exact ⟨start', by simp [run, ← hsame], hstart⟩

end While

/-! ## Counted loops -/

/-- The first `count` iterations of a `for` loop over `0, …, bound - 1`. -/
def forRange {bound : ℕ} (body : Fin bound → σ → Except φ σ) :
    (count : ℕ) → count ≤ bound → σ → Except φ σ
  | 0, _, state => .ok state
  | count + 1, hcount, state =>
      match forRange body count (Nat.le_of_succ_le hcount) state with
      | .error error => .error error
      | .ok after => body ⟨count, hcount⟩ after

/-- The rule for a counted loop whose iterations cannot fail under the
invariant. -/
theorem forRange_spec {bound : ℕ} (body : Fin bound → σ → Except φ σ)
    (invariant : ℕ → σ → Prop) (start : σ) (hstart : invariant 0 start)
    (hstep : ∀ (index : Fin bound) (state : σ), invariant index state →
      ∃ after, body index state = .ok after ∧ invariant (index + 1) after)
    (count : ℕ) (hcount : count ≤ bound) :
    ∃ final, forRange body count hcount start = .ok final ∧
      invariant count final := by
  induction count with
  | zero => exact ⟨start, rfl, hstart⟩
  | succ count ih =>
      obtain ⟨state, hrun, hstate⟩ := ih (Nat.le_of_succ_le hcount)
      obtain ⟨after, hbody, hafter⟩ := hstep ⟨count, hcount⟩ state hstate
      exact ⟨after, by simp [forRange, hrun, hbody], hafter⟩

/-- A `for` loop over `0, …, bound - 1`. -/
def forAll {bound : ℕ} (body : Fin bound → σ → Except φ σ) (state : σ) :
    Except φ σ :=
  forRange body bound (Nat.le_refl bound) state

/-- The rule for the whole loop. -/
theorem forAll_spec {bound : ℕ} (body : Fin bound → σ → Except φ σ)
    (invariant : ℕ → σ → Prop) (start : σ) (hstart : invariant 0 start)
    (hstep : ∀ (index : Fin bound) (state : σ), invariant index state →
      ∃ after, body index state = .ok after ∧ invariant (index + 1) after) :
    ∃ final, forAll body start = .ok final ∧ invariant bound final :=
  forRange_spec body invariant start hstart hstep bound (Nat.le_refl bound)

end PicoSched.Loop
