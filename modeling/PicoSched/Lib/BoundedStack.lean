import Mathlib.Data.Int.Basic
import Mathlib.Data.List.Basic

/-!
# Bounded stacks

A stack kept in an array of fixed capacity: pushing on a full stack drops the
argument, popping an empty one returns nothing.  The bound is a field of the
structure, so an overfull stack cannot be written down.
-/

namespace PicoSched.BoundedStack

/-- The live cells of an array-backed stack, listed from the top down. -/
@[ext]
structure Stack (α : Type*) (capacity : ℕ) where
  entries : List α
  bounded : entries.length ≤ capacity

variable {α : Type*} {capacity : ℕ}

namespace Stack

def empty : Stack α capacity := ⟨[], Nat.zero_le capacity⟩

/-- The array index of the top cell, `-1` when there is none. -/
def top (stack : Stack α capacity) : ℤ := (stack.entries.length : ℤ) - 1

def isEmpty (stack : Stack α capacity) : Bool := stack.top < 0

def isFull (stack : Stack α capacity) : Bool := (capacity : ℤ) - 1 ≤ stack.top

def push (value : α) (stack : Stack α capacity) : Stack α capacity :=
  if hroom : stack.entries.length < capacity then
    ⟨value :: stack.entries, hroom⟩
  else stack

def pop (stack : Stack α capacity) : Option α × Stack α capacity :=
  (stack.entries.head?,
    ⟨stack.entries.tail, by
      rw [List.length_tail]
      exact le_trans (Nat.sub_le _ _) stack.bounded⟩)

/-- The cell at an array index, counted from the bottom. -/
def cell (stack : Stack α capacity) (index : ℕ) : Option α :=
  stack.entries.reverse[index]?

@[simp]
theorem entries_empty : (empty : Stack α capacity).entries = [] := rfl

theorem isEmpty_eq_true_iff (stack : Stack α capacity) :
    stack.isEmpty = true ↔ stack.entries = [] := by
  rw [isEmpty, decide_eq_true_iff, top]
  rw [← List.length_eq_zero_iff]
  omega

theorem isEmpty_eq_false_iff (stack : Stack α capacity) :
    stack.isEmpty = false ↔ stack.entries ≠ [] := by
  rw [← Bool.not_eq_true, isEmpty_eq_true_iff]

theorem isFull_eq_false_iff (stack : Stack α capacity) :
    stack.isFull = false ↔ stack.entries.length < capacity := by
  rw [isFull, decide_eq_false_iff_not, top]
  omega

theorem entries_push (value : α) {stack : Stack α capacity}
    (hroom : stack.entries.length < capacity) :
    (stack.push value).entries = value :: stack.entries := by
  simp [push, hroom]

theorem pop_of_entries_eq_cons {stack : Stack α capacity} {value : α}
    {rest : List α} (hentries : stack.entries = value :: rest) :
    stack.pop = (some value, ⟨rest, by
      have hbounded := stack.bounded
      rw [hentries, List.length_cons] at hbounded
      exact le_trans (Nat.le_succ _) hbounded⟩) := by
  simp [pop, hentries]

/-- Popping an entry and pushing it back restores the stack. -/
theorem push_pop {stack : Stack α capacity} {value : α} {rest : List α}
    (hentries : stack.entries = value :: rest) :
    stack.pop.2.push value = stack := by
  have hroom : stack.pop.2.entries.length < capacity := by
    have hbounded := stack.bounded
    simp only [pop, hentries, List.tail_cons]
    rwa [hentries, List.length_cons] at hbounded
  apply Stack.ext
  rw [entries_push value hroom]
  simp [pop, hentries]

end Stack

end PicoSched.BoundedStack
