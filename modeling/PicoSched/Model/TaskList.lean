import Mathlib.Data.Fin.VecNotation
import PicoSched.Model.Main

/-!
# The task list of the repository

Tables given by their columns, and the one `main.c` is compiled with: seven
tasks on two cores, with the bound `get_Utilization` prints for them.
-/

namespace PicoSched.TaskManager

/-- The columns of a row of `task_list` that differ between the tasks. -/
structure Row where
  runtime : UInt16
  period : UInt32
  priority : UInt8

/-- A declared row, or the row of an extra task behind the declared ones. -/
def Row.info {count : ℕ} (rows : Fin count → Row) (index : ℕ) : TaskInfo :=
  if hindex : index < count then
    ⟨index, "TASK " ++ toString index, (rows ⟨index, hindex⟩).runtime.toNat,
      (rows ⟨index, hindex⟩).period.toNat, (rows ⟨index, hindex⟩).priority.toNat,
      1, none, none, false, false, 0⟩
  else ⟨index, "Extra T", 0, 0, 1, 1, none, none, false, false, 0⟩

/-- `task_list` as it is initialised from its rows. -/
def TaskTable.ofRows (cfg : Config) (rows : Fin cfg.numOfTask → Row) :
    TaskTable cfg where
  entry task := Row.info rows task
  runtime_lt task := by
    rw [Row.info]
    split
    · exact (rows _).runtime.toNat_lt
    · exact by norm_num
  period_lt task := by
    rw [Row.info]
    split
    · exact (rows _).period.toNat_lt
    · exact by norm_num
  priority_lt task := by
    rw [Row.info]
    split
    · exact (rows _).priority.toNat_lt
    · exact by norm_num
  subnum_eq task := by rw [Row.info]; split <;> rfl
  myPtr_eq task := by rw [Row.info]; split <;> rfl
  splittedPtr_eq task := by rw [Row.info]; split <;> rfl
  dependency_eq task := by rw [Row.info]; split <;> rfl
  heavy_eq task := by rw [Row.info]; split <;> rfl

/-- A configuration whose three numbers are checked together. -/
def Config.checked (numOfTask numberOfCores : ℕ) (utilizationBound : ℚ)
    (hpos : 0 < numOfTask ∧ 0 < numberOfCores ∧ 0 < utilizationBound) : Config where
  numOfTask := numOfTask
  numberOfCores := numberOfCores
  tasks_pos := hpos.1
  cores_pos := hpos.2.1
  utilizationBound := utilizationBound
  bound_pos := hpos.2.2

/-- `NUM_OF_TASK`, `configNUMBER_OF_CORES` and the bound for seven tasks. -/
def mainConfig : Config := .checked 7 2 (7286 / 10000) (by norm_num)

def mainTable : TaskTable mainConfig :=
  TaskTable.ofRows mainConfig
    ![.mk 3 30 7, .mk 2 30 6, .mk 3 30 5, .mk 8 35 4, .mk 36 50 3,
      .mk 12 100 2, .mk 12 100 1]

end PicoSched.TaskManager
