import Mathlib.Analysis.MeanInequalities
import PicoSched.Lib.FixedPriority

/-!
# Utilization bounds for fixed priorities

A task and the tasks above it ask for a number of ticks that grows with the
time since all of them were released.  If the product of their utilizations,
each plus one, is at most two, then at some time before the deadline the
demand has been served.  A sum of utilizations below the bound of Liu and
Layland gives such a product.
-/

namespace PicoSched.FixedPriority

variable {ι : Type*}

/-! ## The product of the utilizations -/

/-- When each point is reached by what comes before it, the sum grows by at
most the factor of each load. -/
theorem add_sum_le_mul_prod [DecidableEq ι] (base : ℚ) {load point : ι → ℚ}
    (hload : ∀ j, 0 ≤ load j) (hpoint : ∀ j, 0 ≤ point j) (tasks : Finset ι)
    (hreach : ∀ i ∈ tasks, point i ≤ base +
      ∑ j ∈ tasks with point j < point i, load j * point j) :
    base + ∑ j ∈ tasks, load j * point j ≤ base * ∏ j ∈ tasks, (1 + load j) := by
  induction tasks using Finset.induction_on_max_value point with
  | empty => simp
  | insert last tasks hlast hmax ih =>
      have hbefore : ∀ i ∈ insert last tasks,
          ∑ j ∈ insert last tasks with point j < point i, load j * point j =
            ∑ j ∈ tasks with point j < point i, load j * point j := by
        intro i hi
        rw [Finset.filter_insert, if_neg]
        apply not_lt.mpr
        rcases Finset.mem_insert.mp hi with rfl | hi
        · exact le_rfl
        · exact hmax i hi
      have hgrown : base + ∑ j ∈ tasks, load j * point j ≤
          base * ∏ j ∈ tasks, (1 + load j) := by
        apply ih
        intro i hi
        rw [← hbefore i (Finset.mem_insert_of_mem hi)]
        exact hreach i (Finset.mem_insert_of_mem hi)
      have hsum : ∑ j ∈ tasks with point j < point last, load j * point j ≤
          ∑ j ∈ tasks, load j * point j := by
        apply Finset.sum_le_sum_of_subset_of_nonneg (Finset.filter_subset _ _)
        exact fun j _ _ => mul_nonneg (hload j) (hpoint j)
      have hstep : point last ≤ base + ∑ j ∈ tasks, load j * point j := by
        have hnew := hreach last (Finset.mem_insert_self ..)
        rw [hbefore last (Finset.mem_insert_self ..)] at hnew
        linarith
      have hfactor : (0 : ℚ) ≤ 1 + load last := by linarith [hload last]
      rw [Finset.sum_insert hlast, Finset.prod_insert hlast]
      calc
        base + (load last * point last + ∑ j ∈ tasks, load j * point j) ≤
            (base + ∑ j ∈ tasks, load j * point j) * (1 + load last) := by
          linarith [mul_le_mul_of_nonneg_left hstep (hload last)]
        _ ≤ base * (∏ j ∈ tasks, (1 + load j)) * (1 + load last) :=
          mul_le_mul_of_nonneg_right hgrown hfactor
        _ = base * ((1 + load last) * ∏ j ∈ tasks, (1 + load j)) := by ring

/-! ## A time by which the demand has been served -/

section Point

variable {own deadline : ℕ} {above : Finset ι} {period cost : ι → ℕ}

/-- The last release of a task up to the deadline. -/
def lastRelease (deadline : ℕ) (period : ι → ℕ) (j : ι) : ℕ :=
  period j * (deadline / period j)

theorem lastRelease_le (deadline : ℕ) (period : ι → ℕ) (j : ι) :
    lastRelease deadline period j ≤ deadline := Nat.mul_div_le _ _

/-- Between its last release and the deadline a task asks for at most twice
what it asked for before. -/
theorem ceilDiv_mul_le {j : ι} (hpos : 0 < period j)
    (hle : period j ≤ deadline) {t : ℕ} (ht : t ≤ deadline) :
    t ⌈/⌉ period j * cost j ≤ deadline / period j * cost j +
      if lastRelease deadline period j < t then
        deadline / period j * cost j
      else 0 := by
  split
  · rename_i hlater
    have hone : 1 ≤ deadline / period j := Nat.div_pos hle hpos
    have hceil : t ⌈/⌉ period j ≤ deadline / period j + 1 := by
      rw [ceilDiv_le_iff_le_mul hpos]
      exact ht.trans (Nat.lt_mul_div_succ _ hpos).le
    calc
      t ⌈/⌉ period j * cost j ≤ (deadline / period j + 1) * cost j :=
        Nat.mul_le_mul_right _ hceil
      _ ≤ (deadline / period j + deadline / period j) * cost j :=
        Nat.mul_le_mul_right _ (Nat.add_le_add_left hone _)
      _ = _ := Nat.add_mul _ _ _
  · rename_i hearlier
    rw [add_zero]
    apply Nat.mul_le_mul_right
    rw [ceilDiv_le_iff_le_mul hpos]
    exact not_lt.mp hearlier

theorem demand_le (hperiod : ∀ j ∈ above, 0 < period j ∧ period j ≤ deadline)
    {t : ℕ} (ht : t ≤ deadline) :
    demand own above period cost t ≤
      own + ∑ j ∈ above, deadline / period j * cost j +
        ∑ j ∈ above with lastRelease deadline period j < t,
          deadline / period j * cost j := by
  rw [demand, Finset.sum_filter, add_assoc, ← Finset.sum_add_distrib]
  apply Nat.add_le_add_left
  apply Finset.sum_le_sum
  intro j hj
  exact ceilDiv_mul_le (hperiod j hj).1 (hperiod j hj).2 ht

/-- The hyperbolic bound: some time up to the deadline serves the demand. -/
theorem exists_demand_le [DecidableEq ι] (hown : 0 < own)
    (hdeadline : 0 < deadline)
    (hperiod : ∀ j ∈ above, 0 < period j ∧ period j ≤ deadline)
    (hprod : (1 + (own : ℚ) / deadline) *
      ∏ j ∈ above, (1 + (cost j : ℚ) / period j) ≤ 2) :
    ∃ t ≤ deadline, demand own above period cost t ≤ t := by
  by_contra hnone
  push Not at hnone
  -- in a window that never serves the demand, the releases grow too slowly
  have hdemand : ∀ t ≤ deadline, (t : ℚ) <
      own + ∑ j ∈ above, ((deadline / period j * cost j : ℕ) : ℚ) +
        ∑ j ∈ above with lastRelease deadline period j < t,
          ((deadline / period j * cost j : ℕ) : ℚ) := by
    intro t ht
    have hless := (hnone t ht).trans_le (demand_le hperiod ht)
    exact_mod_cast hless
  have hload : ∀ j ∈ above, (cost j : ℚ) / period j *
      lastRelease deadline period j = (deadline / period j * cost j : ℕ) := by
    intro j hj
    have hpos : (period j : ℚ) ≠ 0 :=
      Nat.cast_ne_zero.mpr (hperiod j hj).1.ne'
    rw [lastRelease]
    push_cast
    field_simp
  have hsums : ∀ {tasks : Finset ι}, tasks ⊆ above →
      ∑ j ∈ tasks, ((deadline / period j * cost j : ℕ) : ℚ) =
        ∑ j ∈ tasks, (cost j : ℚ) / period j *
          lastRelease deadline period j := by
    intro tasks hsub
    apply Finset.sum_congr rfl
    intro j hj
    rw [hload j (hsub hj)]
  set total := ∑ j ∈ above, ((deadline / period j * cost j : ℕ) : ℚ)
    with htotal
  have hbase : (own : ℚ) + total + total ≤
      (own + total) * ∏ j ∈ above, (1 + (cost j : ℚ) / period j) := by
    have hgrow := add_sum_le_mul_prod (own + total)
      (fun j => div_nonneg (Nat.cast_nonneg (cost j)) (Nat.cast_nonneg (period j)))
      (fun j => Nat.cast_nonneg (lastRelease deadline period j)) above ?_
    · rwa [← hsums (Finset.Subset.refl above)] at hgrow
    · intro i hi
      have hless := hdemand (lastRelease deadline period i) (lastRelease_le ..)
      rw [hsums (Finset.filter_subset _ _)] at hless
      simp only [Nat.cast_lt]
      exact hless.le
  have hown' : (0 : ℚ) < own := Nat.cast_pos.mpr hown
  have hdeadline' : (0 : ℚ) < deadline := Nat.cast_pos.mpr hdeadline
  have hlast : (deadline : ℚ) < own + total + total := by
    have hless := hdemand deadline le_rfl
    have hpart : ∑ j ∈ above with lastRelease deadline period j < deadline,
        ((deadline / period j * cost j : ℕ) : ℚ) ≤ total :=
      Finset.sum_le_sum_of_subset_of_nonneg (Finset.filter_subset _ _)
        fun _ _ _ => Nat.cast_nonneg _
    linarith
  have hshare : (own : ℚ) < own / deadline * (own + total + total) := by
    calc
      (own : ℚ) = own / deadline * deadline :=
        (div_mul_cancel₀ _ hdeadline'.ne').symm
      _ < own / deadline * (own + total + total) :=
        mul_lt_mul_of_pos_left hlast (div_pos hown' hdeadline')
  have hfactor : (0 : ℚ) < 1 + own / deadline := by positivity
  have htwice : 2 * ((own : ℚ) + total) < 2 * (own + total) := by
    calc
      2 * ((own : ℚ) + total) = own + total + total + own := by ring
      _ < (own + total + total) * (1 + own / deadline) := by linarith
      _ ≤ (own + total) * (∏ j ∈ above, (1 + (cost j : ℚ) / period j)) *
            (1 + own / deadline) :=
        mul_le_mul_of_nonneg_right hbase hfactor.le
      _ = (own + total) * ((1 + (own : ℚ) / deadline) *
            ∏ j ∈ above, (1 + (cost j : ℚ) / period j)) := by ring
      _ ≤ (own + total) * 2 := by
        apply mul_le_mul_of_nonneg_left hprod
        have htotal' : 0 ≤ total :=
          Finset.sum_nonneg fun _ _ => Nat.cast_nonneg _
        linarith
      _ = 2 * (own + total) := by ring
  exact lt_irrefl _ htwice

/-- A longer period asks for less. -/
theorem ceilDiv_le_of_le {short long : ℕ} (hpos : 0 < short)
    (hle : short ≤ long) (t : ℕ) : t ⌈/⌉ long ≤ t ⌈/⌉ short := by
  rw [ceilDiv_le_iff_le_mul (hpos.trans_le hle)]
  exact ((ceilDiv_le_iff_le_mul hpos).mp le_rfl).trans
    (Nat.mul_le_mul_right _ hle)

/-- The hyperbolic bound for a deadline before the period: periods beyond the
deadline count as the deadline. -/
theorem exists_demand_le_of_min [DecidableEq ι] (hown : 0 < own)
    (hdeadline : 0 < deadline) (hperiod : ∀ j ∈ above, 0 < period j)
    (hprod : (1 + (own : ℚ) / deadline) *
      ∏ j ∈ above, (1 + (cost j : ℚ) / (min (period j) deadline : ℕ)) ≤ 2) :
    ∃ t ≤ deadline, demand own above period cost t ≤ t := by
  have hmin : ∀ j ∈ above, 0 < min (period j) deadline ∧
      min (period j) deadline ≤ deadline := fun j hj =>
    ⟨lt_min (hperiod j hj) hdeadline, min_le_right _ _⟩
  obtain ⟨t, hle, hserved⟩ := exists_demand_le hown hdeadline hmin hprod
  refine ⟨t, hle, le_trans ?_ hserved⟩
  apply Nat.add_le_add_left
  apply Finset.sum_le_sum
  intro j hj
  apply Nat.mul_le_mul_right
  exact ceilDiv_le_of_le (hmin j hj).1 (min_le_left _ _) t

end Point

/-! ## The bound of Liu and Layland -/

/-- The bound is met when its factor is small enough. -/
theorem le_of_pow_le_two {count : ℕ} {bound : ℚ} (hcount : 0 < count)
    (hbound : 0 ≤ bound) (hpow : (1 + bound / count) ^ count ≤ 2) :
    (bound : ℝ) ≤ count * (2 ^ (1 / count : ℝ) - 1) := by
  have hcount' : (0 : ℝ) < count := Nat.cast_pos.mpr hcount
  have hfactor : (0 : ℝ) ≤ 1 + bound / count :=
    add_nonneg zero_le_one
      (div_nonneg (Rat.cast_nonneg.mpr hbound) hcount'.le)
  have hpow' : (1 + (bound : ℝ) / count) ^ count ≤ 2 := by
    exact_mod_cast hpow
  have hroot : 1 + (bound : ℝ) / count ≤ 2 ^ (1 / count : ℝ) := by
    calc
      1 + (bound : ℝ) / count =
          ((1 + (bound : ℝ) / count) ^ count) ^ (1 / count : ℝ) := by
        rw [one_div, Real.pow_rpow_inv_natCast hfactor hcount.ne']
      _ ≤ 2 ^ (1 / count : ℝ) :=
        Real.rpow_le_rpow (pow_nonneg hfactor _) hpow' (by positivity)
  rw [← div_le_iff₀' hcount']
  linarith

/-- The bound is at most one. -/
theorem bound_le_one {count : ℕ} {bound : ℚ} (hcount : 0 < count)
    (hbound : (bound : ℝ) ≤ count * (2 ^ (1 / count : ℝ) - 1)) :
    bound ≤ 1 := by
  have hcount' : (1 : ℝ) ≤ count := Nat.one_le_cast.mpr hcount
  have hpos : (0 : ℝ) < count := zero_lt_one.trans_le hcount'
  have hroot : (2 : ℝ) ^ (1 / count : ℝ) ≤ 1 + 1 / count := by
    have hbernoulli := rpow_one_add_le_one_add_mul_self (s := 1) (p := 1 / count)
      (by norm_num) (by positivity) ((div_le_one hpos).mpr hcount')
    rwa [one_add_one_eq_two, mul_one] at hbernoulli
  have hone : (bound : ℝ) ≤ 1 := by
    calc
      (bound : ℝ) ≤ count * (2 ^ (1 / count : ℝ) - 1) := hbound
      _ ≤ count * (1 / count) := by
        apply mul_le_mul_of_nonneg_left _ hpos.le
        linarith
      _ = 1 := mul_one_div_cancel hpos.ne'
  exact_mod_cast hone

/-- Utilizations of at most `count` tasks below the bound for `count` tasks. -/
theorem prod_one_add_le_two {load : ι → ℚ} {tasks : Finset ι} {count : ℕ}
    {bound : ℚ} (hcount : 0 < count) (hcard : tasks.card ≤ count)
    (hload : ∀ j ∈ tasks, 0 ≤ load j) (hsum : ∑ j ∈ tasks, load j ≤ bound)
    (hbound : (bound : ℝ) ≤ count * (2 ^ (1 / count : ℝ) - 1)) :
    ∏ j ∈ tasks, (1 + load j) ≤ 2 := by
  have hcount' : (0 : ℝ) < count := Nat.cast_pos.mpr hcount
  have hcard' : (tasks.card : ℝ) / count ≤ 1 :=
    (div_le_one hcount').mpr (Nat.cast_le.mpr hcard)
  have hfactor : ∀ j ∈ tasks, (0 : ℝ) ≤ 1 + load j := fun j hj =>
    add_nonneg zero_le_one (Rat.cast_nonneg.mpr (hload j hj))
  -- the geometric mean, with `count - tasks.card` more factors of one
  have hmean : ∏ j ∈ tasks, (1 + (load j : ℝ)) ^ (1 / count : ℝ) ≤
      1 - tasks.card / count + ∑ j ∈ tasks, 1 / count * (1 + (load j : ℝ)) := by
    have hweighted := Real.geom_mean_le_arith_mean_weighted
      (Finset.insertNone tasks)
      (fun i => i.elim (1 - tasks.card / count : ℝ) fun _ => 1 / count)
      (fun i => i.elim 1 fun j => 1 + (load j : ℝ)) ?_ ?_ ?_
    · rw [Finset.prod_insertNone, Finset.sum_insertNone] at hweighted
      simpa using hweighted
    · rw [Finset.forall_mem_insertNone]
      exact ⟨sub_nonneg.mpr hcard', fun _ _ => (one_div_pos.mpr hcount').le⟩
    · rw [Finset.sum_insertNone]
      simp only [Option.elim_none, Option.elim_some, Finset.sum_const,
        nsmul_eq_mul]
      ring
    · rw [Finset.forall_mem_insertNone]
      exact ⟨zero_le_one, hfactor⟩
  have hsum' : ∑ j ∈ tasks, (load j : ℝ) ≤ bound := by
    exact_mod_cast hsum
  have hroot : (∏ j ∈ tasks, (1 + (load j : ℝ))) ^ (1 / count : ℝ) ≤
      2 ^ (1 / count : ℝ) := by
    calc
      (∏ j ∈ tasks, (1 + (load j : ℝ))) ^ (1 / count : ℝ) =
          ∏ j ∈ tasks, (1 + (load j : ℝ)) ^ (1 / count : ℝ) :=
        (Real.finsetProd_rpow _ _ hfactor _).symm
      _ ≤ 1 - tasks.card / count +
            ∑ j ∈ tasks, 1 / count * (1 + (load j : ℝ)) := hmean
      _ = 1 + (∑ j ∈ tasks, (load j : ℝ)) / count := by
        rw [← Finset.mul_sum, Finset.sum_add_distrib, Finset.sum_const,
          nsmul_eq_mul]
        ring
      _ ≤ 1 + (2 ^ (1 / count : ℝ) - 1) := by
        apply add_le_add_right
        rw [div_le_iff₀' hcount']
        exact hsum'.trans hbound
      _ = 2 ^ (1 / count : ℝ) := add_sub_cancel ..
  have hprod : ∏ j ∈ tasks, (1 + (load j : ℝ)) ≤ 2 :=
    (Real.rpow_le_rpow_iff (Finset.prod_nonneg hfactor) zero_le_two
      (one_div_pos.mpr hcount')).mp hroot
  exact_mod_cast hprod

end PicoSched.FixedPriority
