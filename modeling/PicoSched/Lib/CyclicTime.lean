import Mathlib.Data.Nat.Init
import Mathlib.Tactic.Ring

/-!
# Times on a counter that wraps

A counter shows a time without its epoch, the number of times it has wrapped.
Times less than a full turn ahead of a base are told apart all the same: those
behind the wrap show less than the base does.
-/

namespace PicoSched.CyclicTime

variable {modulus base time other : ℕ}

/-- The time is less than a full turn ahead of the base. -/
def Within (modulus base time : ℕ) : Prop :=
  base ≤ time ∧ time < base + modulus

theorem Within.pos (hwithin : Within modulus base time) : 0 < modulus := by
  have := hwithin.1.trans_lt hwithin.2
  omega

theorem Within.epoch (hwithin : Within modulus base time) :
    time / modulus = base / modulus ∨ time / modulus = base / modulus + 1 := by
  have hlow := Nat.div_le_div_right (c := modulus) hwithin.1
  have hhigh := Nat.div_le_div_right (c := modulus) hwithin.2.le
  rw [Nat.add_div_right base hwithin.pos] at hhigh
  omega

/-- The base and the time as multiples of the modulus. -/
theorem Within.split (hwithin : Within modulus base time) :
    base = modulus * (base / modulus) + base % modulus ∧
      time = modulus * (time / modulus) + time % modulus ∧
        base % modulus < modulus ∧ time % modulus < modulus ∧
          modulus * (base / modulus + 1) =
            modulus * (base / modulus) + modulus :=
  ⟨(Nat.div_add_mod base modulus).symm, (Nat.div_add_mod time modulus).symm,
    Nat.mod_lt _ hwithin.pos, Nat.mod_lt _ hwithin.pos, by ring⟩

/-- The counter shows less than at the base if and only if it has wrapped. -/
theorem Within.mod_lt_iff (hwithin : Within modulus base time) :
    time % modulus < base % modulus ↔
      time / modulus = base / modulus + 1 := by
  obtain ⟨hbase, htime, hbaseLt, htimeLt, hnext⟩ := hwithin.split
  obtain ⟨hle, hlt⟩ := hwithin
  rcases Within.epoch ⟨hle, hlt⟩ with hepoch | hepoch
  · rw [hepoch] at htime
    constructor <;> omega
  · rw [hepoch, hnext] at htime
    constructor <;> omega

/-- In one epoch the counter shows the order of the times. -/
theorem mod_le_iff (hepoch : time / modulus = other / modulus) :
    time % modulus ≤ other % modulus ↔ time ≤ other := by
  have htime := Nat.div_add_mod time modulus
  have hother := Nat.div_add_mod other modulus
  rw [hepoch] at htime
  omega

/-- The order of two times ahead of a base, from what the counter shows. -/
theorem Within.lt_iff (htime : Within modulus base time)
    (hother : Within modulus base other) :
    time < other ↔
      if time % modulus < base % modulus then
        other % modulus < base % modulus ∧ time % modulus < other % modulus
      else other % modulus < base % modulus ∨
        time % modulus < other % modulus := by
  obtain ⟨-, hsplit, -, hlt, hnext⟩ := htime.split
  obtain ⟨-, hsplit', -, hlt', -⟩ := hother.split
  have horder : time / modulus = other / modulus →
      (time % modulus < other % modulus ↔ time < other) := by
    intro hepoch
    rw [hepoch] at hsplit
    omega
  have hself : base / modulus ≠ base / modulus + 1 := by omega
  simp only [htime.mod_lt_iff, hother.mod_lt_iff]
  rcases htime.epoch with hepoch | hepoch <;>
    rcases hother.epoch with hepoch' | hepoch'
  · simp only [hepoch, hepoch', hself, if_false, false_or]
    exact (horder (hepoch.trans hepoch'.symm)).symm
  · rw [hepoch] at hsplit
    rw [hepoch', hnext] at hsplit'
    simp only [hepoch, hepoch', hself, if_false, true_or, iff_true]
    omega
  · rw [hepoch, hnext] at hsplit
    rw [hepoch'] at hsplit'
    simp only [hepoch, hepoch', hself, if_true, false_and, iff_false]
    omega
  · simp only [hepoch, hepoch', if_true, true_and]
    exact (horder (hepoch.trans hepoch'.symm)).symm

/-- The time to wait, from what the counter shows. -/
theorem Within.add_wait (hwithin : Within modulus base time) :
    base + (time % modulus + modulus - base % modulus) % modulus = time := by
  obtain ⟨hbase, htime, hbaseLt, htimeLt, hnext⟩ := hwithin.split
  obtain ⟨hle, hlt⟩ := hwithin
  rcases Within.epoch ⟨hle, hlt⟩ with hepoch | hepoch
  · rw [hepoch] at htime
    have hwait : time % modulus + modulus - base % modulus =
        time - base + modulus := by omega
    rw [hwait, Nat.add_mod_right, Nat.mod_eq_of_lt (by omega)]
    omega
  · rw [hepoch, hnext] at htime
    rw [Nat.mod_eq_of_lt (by omega)]
    omega

/-- One tick either wraps the counter, into the next epoch, or counts. -/
theorem succ_cases (hpos : 0 < modulus) (time : ℕ) :
    (time + 1) % modulus = 0 ∧ (time + 1) / modulus = time / modulus + 1 ∧
        time % modulus + 1 = modulus ∨
      (time + 1) % modulus = time % modulus + 1 ∧
        (time + 1) / modulus = time / modulus := by
  rcases Nat.eq_or_lt_of_le (Nat.succ_le_of_lt (Nat.mod_lt time hpos)) with
    hwrap | hcount
  · refine .inl ⟨?_, ?_, hwrap⟩
    · rw [← Nat.mod_add_mod, ← Nat.succ_eq_add_one, hwrap, Nat.mod_self]
    · have hsplit := Nat.div_add_mod time modulus
      have htime : time + 1 = modulus * (time / modulus + 1) := by
        rw [mul_add, mul_one]
        omega
      rw [htime, Nat.mul_div_cancel_left _ hpos]
  · refine .inr ⟨?_, ?_⟩
    · rw [← Nat.mod_add_mod, Nat.mod_eq_of_lt hcount]
    · have hsplit := Nat.div_add_mod time modulus
      refine Nat.div_eq_of_lt_le ?_ ?_
      · rw [mul_comm]
        omega
      · rw [Nat.succ_mul, mul_comm]
        omega

end PicoSched.CyclicTime
