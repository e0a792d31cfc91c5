import Mathlib.Algebra.Group.Int.Defs

/-!
# The hyperperiod of the monitor

`gcd`, `lcm` and `calculate_lcm` of `task_manager.c` on `int`.  An operation
whose result is not an `int` has no value.
-/

namespace PicoSched.TaskManager

/-- Why an `int` operation has no value. -/
inductive IntFault where
  | overflow
  | divisionByZero
  | outOfBounds
  deriving DecidableEq

/-- The values of an `int`. -/
def FitsInt (value : ℤ) : Prop := -2 ^ 31 ≤ value ∧ value < 2 ^ 31

instance (value : ℤ) : Decidable (FitsInt value) :=
  inferInstanceAs (Decidable (_ ∧ _))

def checkedInt (value : ℤ) : Except IntFault ℤ :=
  if FitsInt value then .ok value else .error .overflow

/-- `a * b`. -/
def intMul (a b : ℤ) : Except IntFault ℤ := checkedInt (a * b)

/-- `a / b`, truncated. -/
def intDiv (a b : ℤ) : Except IntFault ℤ :=
  if b = 0 then .error .divisionByZero else checkedInt (a.tdiv b)

/-- The `while` loop takes `(a, b)` to `(b, a % b)`; the remainder exists when
the quotient does. -/
def gcd (a b : ℤ) : Except IntFault ℤ :=
  if b = 0 then .ok a
  else if FitsInt (a.tdiv b) then gcd b (a.tmod b)
  else .error .overflow
termination_by b.natAbs
decreasing_by
  rename_i hzero _
  rw [Int.natAbs_tmod]
  exact Nat.mod_lt _ (Int.natAbs_pos.mpr hzero)

def lcm (a b : ℤ) : Except IntFault ℤ :=
  match intMul a b with
  | .error fault => .error fault
  | .ok product =>
      match gcd a b with
      | .error fault => .error fault
      | .ok divisor => intDiv product divisor

/-- The loop of `calculate_lcm` from a value of `result` on. -/
def lcmLoop (result : ℤ) : List ℤ → Except IntFault ℤ
  | [] => .ok result
  | period :: periods =>
      match lcm result period with
      | .error fault => .error fault
      | .ok result => lcmLoop result periods

def calculateLcm : List ℤ → Except IntFault ℤ
  | [] => .error .outOfBounds
  | first :: periods => lcmLoop first periods

end PicoSched.TaskManager
