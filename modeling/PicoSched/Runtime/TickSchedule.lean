import PicoSched.Lib.FixedPriority
import PicoSched.Model.TickSchedule

/-!
# Every core is a fixed-priority schedule

The schedule in ticks, core by core: one core with periodic arrivals for each
core of the program, as long as every piece is pinned to one core and no two
pieces of a core have the same priority.
-/

namespace PicoSched.TickSchedule

open FixedPriority TaskManager

variable {cfg : Config} {memory : Memory cfg} {core : CorePtr cfg}
  {slot body : TaskPtr cfg}

/-- Every piece is pinned to one core, and the priorities on a core differ. -/
structure Partitioned (memory : Memory cfg) : Prop where
  single : ∀ slot first second, (slot, first) ∈ memory.assigned →
    (slot, second) ∈ memory.assigned → first = second
  distinct : ∀ core, ∀ slot ∈ pinned memory core, ∀ other ∈ pinned memory core,
    (memory.taskList slot).priority = (memory.taskList other).priority →
      slot = other

theorem mem_pinned : slot ∈ pinned memory core ↔
    (slot, core) ∈ memory.assigned := by
  simp [pinned]

/-- What a core executes is pinned to it and ready. -/
theorem running_ready {executed : TaskPtr cfg → ℕ} {t : ℕ}
    (hrunning : running memory executed t core = some slot) :
    slot ∈ pinned memory core ∧ Ready memory executed t slot := by
  have hmem := List.argmax_mem hrunning
  rw [List.mem_filter, decide_eq_true_iff] at hmem
  exact hmem

/-- A core with a ready piece executes one of at least its priority. -/
theorem exists_running {executed : TaskPtr cfg → ℕ} {t : ℕ}
    (hslot : slot ∈ pinned memory core)
    (hready : Ready memory executed t slot) :
    ∃ other, running memory executed t core = some other ∧
      (memory.taskList slot).priority ≤ (memory.taskList other).priority := by
  have hmem : slot ∈ (pinned memory core).filter
      fun slot => Ready memory executed t slot := by
    rw [List.mem_filter, decide_eq_true_iff]
    exact ⟨hslot, hready⟩
  cases hrunning : running memory executed t core with
  | none =>
      rw [running, List.argmax_eq_none] at hrunning
      exact absurd hmem (hrunning ▸ List.not_mem_nil)
  | some other =>
      have hle := List.le_of_mem_argmax hmem hrunning
      exact ⟨other, rfl, hle⟩

theorem Partitioned.executedAt_succ (hpart : Partitioned memory)
    (hslot : slot ∈ pinned memory core) (t : ℕ) :
    executedAt memory (t + 1) slot = executedAt memory t slot +
      if running memory (executedAt memory t) t core = some slot then 1
      else 0 := by
  have hcore : (∃ other,
      running memory (executedAt memory t) t other = some slot) ↔
        running memory (executedAt memory t) t core = some slot := by
    constructor
    · rintro ⟨other, hrunning⟩
      have hother := (running_ready hrunning).1
      rw [mem_pinned] at hslot hother
      rwa [hpart.single slot core other hslot hother]
    · exact fun hrunning => ⟨core, hrunning⟩
  rw [executedAt, tick, if_congr hcore rfl rfl]

/-- Each core of the program runs a fixed-priority schedule. -/
theorem Partitioned.coreSchedule (hpart : Partitioned memory)
    (core : CorePtr cfg) :
    CoreSchedule (pinned memory core).toFinset
      (fun slot other =>
        (memory.taskList other).priority < (memory.taskList slot).priority)
      (fun slot => (memory.taskList slot).runtime)
      (fun slot t =>
        readyJobs memory (executedAt memory t) t cfg.maxNumTasks slot)
      (fun slot t => executedAt memory t slot)
      (fun t => running memory (executedAt memory t) t core) where
  start _ _ := rfl
  tick t slot hslot :=
    hpart.executedAt_succ (List.mem_toFinset.mp hslot) t
  ready t slot hrunning := by
    obtain ⟨hslot, hready⟩ := running_ready hrunning
    exact ⟨List.mem_toFinset.mpr hslot, hready⟩
  highest t slot hslot hready := by
    rw [List.mem_toFinset] at hslot
    obtain ⟨other, hrunning, hle⟩ := exists_running hslot hready
    refine ⟨other, hrunning, ?_⟩
    rcases hle.lt_or_eq with hless | heq
    · exact .inr hless
    · exact .inl (hpart.distinct core slot hslot other
        (running_ready hrunning).1 heq).symm

/-! ## Arrivals -/

/-- A piece that is pointed to has a predecessor. -/
theorem exists_predecessor
    (hpointer : (memory.taskList body).splittedPtr ≠ none)
    (hhandle : (memory.taskList body).splittedPtr =
      (memory.taskList slot).myPtr) :
    ∃ found, predecessor memory slot = some found ∧
      (memory.taskList found).splittedPtr ≠ none ∧
        (memory.taskList found).splittedPtr = (memory.taskList slot).myPtr := by
  cases hfound : predecessor memory slot with
  | none =>
      rw [predecessor, List.find?_eq_none] at hfound
      exact absurd (decide_eq_true ⟨hpointer, hhandle⟩)
        (hfound body (List.mem_finRange body))
  | some found =>
      have hspec := List.find?_some hfound
      exact ⟨found, rfl, of_decide_eq_true hspec⟩

/-- The first piece of a task is released every period. -/
theorem readyJobs_first (hfirst : (memory.taskList slot).dependency = false)
    (hperiod : 0 < (memory.taskList slot).period)
    (executed : TaskPtr cfg → ℕ) (t : ℕ) :
    readyJobs memory executed t cfg.maxNumTasks slot =
      arrivals 0 (memory.taskList slot).period (t + 1) := by
  obtain ⟨fuel, hfuel⟩ := Nat.exists_eq_succ_of_ne_zero slot.pos.ne'
  rw [hfuel, readyJobs, hfirst, if_neg Bool.false_ne_true]
  apply eq_of_forall_lt_iff
  intro n
  rw [lt_arrivals_iff hperiod, Nat.lt_succ_iff, Nat.lt_succ_iff,
    Nat.le_div_iff_mul_le hperiod, Nat.zero_add]

theorem readyJobs_tail (htail : (memory.taskList slot).dependency = true)
    (hpred : predecessor memory slot = some body)
    (hpos : 0 < (memory.taskList body).runtime)
    (executed : TaskPtr cfg → ℕ) (t : ℕ) :
    readyJobs memory executed t cfg.maxNumTasks slot =
      executed body / (memory.taskList body).runtime := by
  obtain ⟨fuel, hfuel⟩ := Nat.exists_eq_succ_of_ne_zero slot.pos.ne'
  rw [hfuel, readyJobs, htail, if_pos rfl, hpred]
  dsimp only
  rw [if_neg hpos.ne']

end PicoSched.TickSchedule
