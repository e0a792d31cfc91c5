import Mathlib.Data.Nat.GCD.Basic
import Mathlib.Tactic.NormNum
import PicoSched.Model.Hyperperiod

/-!
# When the hyperperiod is computed

`lcm` multiplies before it divides, so the product has to be an `int` although
only the quotient is wanted.
-/

namespace PicoSched.TaskManager

/-! ## One call -/

theorem fitsInt_natCast (value : ℕ) : FitsInt value ↔ value < 2 ^ 31 := by
  rw [FitsInt]
  constructor
  · intro hfits
    exact_mod_cast hfits.2
  · intro hless
    constructor
    · exact le_trans (by norm_num) (Int.natCast_nonneg value)
    · exact_mod_cast hless

theorem checkedInt_of_lt {value : ℕ} (hless : value < 2 ^ 31) :
    checkedInt value = .ok (value : ℤ) := by
  rw [checkedInt, if_pos ((fitsInt_natCast value).mpr hless)]

theorem checkedInt_of_not_lt {value : ℕ} (hover : ¬value < 2 ^ 31) :
    checkedInt value = .error .overflow := by
  have hfits : ¬FitsInt value := by
    rwa [fitsInt_natCast]
  rw [checkedInt, if_neg hfits]

theorem intMul_natCast (a b : ℕ) : intMul a b = checkedInt (a * b : ℕ) := by
  rw [intMul, Int.natCast_mul]

/-- The loop of `gcd` ends with the greatest common divisor. -/
theorem gcd_natCast (a b : ℕ) (ha : a < 2 ^ 31) (hb : b < 2 ^ 31) :
    gcd a b = .ok (Nat.gcd a b : ℤ) := by
  induction b using Nat.strong_induction_on generalizing a with
  | _ b ih =>
      rw [gcd]
      by_cases hzero : b = 0
      · subst hzero
        simp
      · have hnonzero : ¬(b : ℤ) = 0 := by exact_mod_cast hzero
        have hquotient : FitsInt ((a : ℤ).tdiv b) := by
          rw [← Int.ofNat_tdiv, fitsInt_natCast]
          exact (Nat.div_le_self a b).trans_lt ha
        have hless : a % b < b := Nat.mod_lt a (Nat.pos_of_ne_zero hzero)
        rw [if_neg hnonzero, if_pos hquotient, ← Int.ofNat_tmod,
          ih (a % b) hless b hb (hless.trans hb), Nat.gcd_comm,
          ← Nat.gcd_rec, Nat.gcd_comm]

/-- The product is an `int`: the call of `lcm` is right. -/
theorem lcm_of_lt {a b : ℕ} (ha : 0 < a) (hb : 0 < b)
    (hproduct : a * b < 2 ^ 31) : lcm a b = .ok (Nat.lcm a b : ℤ) := by
  have hfirst : a < 2 ^ 31 := (Nat.le_mul_of_pos_right a hb).trans_lt hproduct
  have hsecond : b < 2 ^ 31 := (Nat.le_mul_of_pos_left b ha).trans_lt hproduct
  have hdivisor : ¬((Nat.gcd a b : ℕ) : ℤ) = 0 := by
    exact_mod_cast (Nat.gcd_pos_of_pos_left b ha).ne'
  have hquotient : a * b / Nat.gcd a b < 2 ^ 31 :=
    (Nat.div_le_self _ _).trans_lt hproduct
  have hmul : intMul a b = .ok ((a * b : ℕ) : ℤ) :=
    (intMul_natCast a b).trans (checkedInt_of_lt hproduct)
  rw [lcm, hmul, gcd_natCast a b hfirst hsecond]
  change intDiv (a * b : ℕ) (Nat.gcd a b) = _
  rw [intDiv, if_neg hdivisor, ← Int.ofNat_tdiv, checkedInt_of_lt hquotient,
    Nat.lcm_eq_mul_div]

/-- The product is no `int`: the call of `lcm` has no value. -/
theorem lcm_of_not_lt {a b : ℕ} (hproduct : ¬a * b < 2 ^ 31) :
    lcm a b = .error .overflow := by
  have hmul : intMul a b = .error .overflow :=
    (intMul_natCast a b).trans (checkedInt_of_not_lt hproduct)
  rw [lcm, hmul]

/-! ## The loop -/

/-- The least common multiple of all periods. -/
def hyperperiod : List ℤ → ℕ
  | [] => 1
  | period :: periods => Nat.lcm period.natAbs (hyperperiod periods)

/-- Every product that `calculate_lcm` forms is an `int`: the hyperperiod of
the periods so far times the next one. -/
def ProductsFit (periods : List ℤ) : Prop :=
  ∀ before period after, periods = before ++ period :: after → before ≠ [] →
    hyperperiod before * period.natAbs < 2 ^ 31

/-- The products of the loop from the value `result` on. -/
def ProductsFitFrom (result : ℕ) (periods : List ℤ) : Prop :=
  ∀ before period after, periods = before ++ period :: after →
    Nat.lcm result (hyperperiod before) * period.natAbs < 2 ^ 31

theorem productsFitFrom_nil (result : ℕ) : ProductsFitFrom result [] := by
  intro before period after hsplit
  simp at hsplit

theorem productsFitFrom_cons (result : ℕ) (period : ℤ) (periods : List ℤ) :
    ProductsFitFrom result (period :: periods) ↔
      result * period.natAbs < 2 ^ 31 ∧
        ProductsFitFrom (Nat.lcm result period.natAbs) periods := by
  constructor
  · intro hfit
    constructor
    · have hfirst := hfit [] period periods rfl
      rwa [hyperperiod, Nat.lcm_one_right] at hfirst
    · intro before next after hsplit
      have hnext := hfit (period :: before) next after (by rw [hsplit]; rfl)
      rwa [hyperperiod, ← Nat.lcm_assoc] at hnext
  · rintro ⟨hfirst, hrest⟩ before next after hsplit
    cases before with
    | nil =>
        obtain ⟨rfl, rfl⟩ := List.cons.inj hsplit
        rwa [hyperperiod, Nat.lcm_one_right]
    | cons head before =>
        obtain ⟨rfl, htail⟩ := List.cons.inj hsplit
        have hnext := hrest before next after htail
        rwa [hyperperiod, ← Nat.lcm_assoc]

theorem productsFit_cons (first : ℤ) (periods : List ℤ) :
    ProductsFit (first :: periods) ↔
      ProductsFitFrom first.natAbs periods := by
  constructor
  · intro hfit before period after hsplit
    exact hfit (first :: before) period after (by rw [hsplit]; rfl)
      (List.cons_ne_nil _ _)
  · intro hfit before period after hsplit hne
    cases before with
    | nil => exact absurd rfl hne
    | cons head before =>
        obtain ⟨rfl, htail⟩ := List.cons.inj hsplit
        exact hfit before period after htail

/-- The loop is right exactly when its products are `int`s. -/
theorem lcmLoop_eq_iff {result : ℕ} {periods : List ℤ} (hresult : 0 < result)
    (hpos : ∀ p ∈ periods, 0 < p) :
    lcmLoop result periods =
        .ok (Nat.lcm result (hyperperiod periods) : ℤ) ↔
      ProductsFitFrom result periods := by
  induction periods generalizing result with
  | nil =>
      rw [lcmLoop, hyperperiod, Nat.lcm_one_right]
      exact iff_of_true rfl (productsFitFrom_nil result)
  | cons period periods ih =>
      rw [List.forall_mem_cons] at hpos
      have hperiod : 0 < period.natAbs := Int.natAbs_pos.mpr hpos.1.ne'
      have hcast : (period.natAbs : ℤ) = period := Int.natAbs_of_nonneg hpos.1.le
      rw [productsFitFrom_cons]
      by_cases hproduct : result * period.natAbs < 2 ^ 31
      · have hcall := lcm_of_lt hresult hperiod hproduct
        rw [hcast] at hcall
        rw [lcmLoop, hcall, hyperperiod, ← Nat.lcm_assoc]
        simp only [hproduct, true_and]
        exact ih (Nat.lcm_pos hresult hperiod) hpos.2
      · have hcall := lcm_of_not_lt hproduct
        rw [hcast] at hcall
        rw [lcmLoop, hcall]
        refine iff_of_false ?_ fun hboth => hproduct hboth.1
        intro heq
        cases heq

/-- `calculate_lcm` returns the hyperperiod of positive periods exactly when
every product on the way is an `int`. -/
theorem calculateLcm_eq_iff {periods : List ℤ} (hne : periods ≠ [])
    (hpos : ∀ p ∈ periods, 0 < p) :
    calculateLcm periods = .ok (hyperperiod periods : ℤ) ↔
      ProductsFit periods := by
  cases periods with
  | nil => exact absurd rfl hne
  | cons first periods =>
      rw [List.forall_mem_cons] at hpos
      have hfirst : 0 < first.natAbs := Int.natAbs_pos.mpr hpos.1.ne'
      have hcast : (first.natAbs : ℤ) = first := Int.natAbs_of_nonneg hpos.1.le
      have hloop := lcmLoop_eq_iff hfirst hpos.2
      rw [hcast] at hloop
      rw [productsFit_cons, ← hloop]
      rfl

/-- The periods of the repository. -/
theorem mainPeriods_lcm :
    calculateLcm [30, 30, 30, 35, 50, 100, 100] = .ok 2100 := by
  have hvalue : hyperperiod [30, 30, 30, 35, 50, 100, 100] = 2100 := by decide
  have hfit : ProductsFit [30, 30, 30, 35, 50, 100, 100] := by
    simp only [productsFit_cons, productsFitFrom_cons, productsFitFrom_nil,
      and_true]
    decide
  rw [(calculateLcm_eq_iff (by decide) (by decide)).mpr hfit, hvalue]
  rfl

/-- Two tasks with a period of 65536 ticks have that hyperperiod, but the
product of the periods is not an `int`. -/
theorem longPeriods_overflow :
    hyperperiod [65536, 65536] = 65536 ∧
      calculateLcm [65536, 65536] = .error .overflow ∧
      calculateLcm [65536, 65536] ≠ .ok (hyperperiod [65536, 65536] : ℤ) := by
  have hvalue : hyperperiod [65536, 65536] = 65536 := by
    simp [hyperperiod]
  have hcall : calculateLcm [65536, 65536] = .error .overflow := by
    simp [calculateLcm, lcmLoop, lcm, intMul, checkedInt, FitsInt]
  refine ⟨hvalue, hcall, ?_⟩
  rw [hcall]
  intro heq
  cases heq

end PicoSched.TaskManager
