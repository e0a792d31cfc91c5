import Mathlib.Data.List.FinRange
import Mathlib.Order.Interval.Finset.Nat
import PicoSched.Allocation.TailRoom
import PicoSched.Model.TaskInfo

/-!
# The tasks assigned beforehand

The choice the pre-assign loop makes, computed from the task table alone: a
heavy task gets a core of its own when the tasks behind it fit on the cores
still left.  The tasks left over and the cores handed out are what the
normal-assign loop starts from.
-/

namespace PicoSched.PreAssign

open Filling TaskManager

variable {cfg : Config} (table : TaskTable cfg)

/-- `Runtime / Period` of a declared task, nothing behind the last one. -/
def load (index : ℕ) : ℚ :=
  if hindex : index < cfg.numOfTask then
    (table.task ⟨index, hindex⟩).runtime / (table.task ⟨index, hindex⟩).period
  else 0

/-- The load of the tasks behind one. -/
def laterLoad (index : ℕ) : ℚ :=
  ∑ later ∈ Finset.Ico (index + 1) cfg.numOfTask, load table later

/-- A heavy task whose later tasks fit on the cores left when `taken` cores
and the one for itself are gone. -/
def Affordable (index taken : ℕ) : Prop :=
  cfg.utilizationBound / (1 + cfg.utilizationBound) < load table index ∧
    laterLoad table index ≤
      ((cfg.numberOfCores : ℚ) - taken - 1) * cfg.utilizationBound

instance (index taken : ℕ) : Decidable (Affordable table index taken) :=
  inferInstanceAs (Decidable (_ ∧ _))

/-- The number of tasks assigned beforehand among the first `index`. -/
def preCount : ℕ → ℕ
  | 0 => 0
  | index + 1 =>
      preCount index + if Affordable table index (preCount index) then 1 else 0

def PreAssigned (index : ℕ) : Prop :=
  Affordable table index (preCount table index)

instance (index : ℕ) : Decidable (PreAssigned table index) :=
  inferInstanceAs (Decidable (Affordable ..))

/-- The load of the first tasks that are not assigned beforehand. -/
def waitingLoad (index : ℕ) : ℚ :=
  ∑ task ∈ Finset.range index,
    if PreAssigned table task then 0 else load table task

/-- The loads of the first tasks that wait, the last task first. -/
def waitingLoads (index : ℕ) : List ℚ :=
  ((List.range index).reverse.filter fun task =>
    ¬PreAssigned table task).map (load table)

/-- The load of the last of the first tasks that is assigned beforehand. -/
def lastLoad : ℕ → ℚ
  | 0 => 0
  | index + 1 =>
      if PreAssigned table index then load table index else lastLoad index

def piece (index : ℕ) : Piece := ⟨index, index, load table index⟩

/-- What the first iterations of the pre-assign loop leave: the free cores from
the top of the stack, the assigned tasks and the waiting ones, latest first. -/
structure Prepared (cfg : Config) where
  free : List (CorePtr cfg)
  given : List (Placement (CorePtr cfg))
  waiting : List Piece

def prepare : ℕ → Prepared cfg
  | 0 => ⟨(List.finRange cfg.numberOfCores).reverse, [], []⟩
  | index + 1 =>
      let before := prepare index
      match before.free with
      | [] => { before with waiting := piece table index :: before.waiting }
      | core :: free =>
          if PreAssigned table index then
            { before with
              free
              given := ⟨piece table index, core, false⟩ :: before.given }
          else { before with waiting := piece table index :: before.waiting }

variable {table}

theorem load_nonneg (index : ℕ) : 0 ≤ load table index := by
  rw [load]
  split
  · positivity
  · exact le_rfl

theorem laterLoad_nonneg (index : ℕ) : 0 ≤ laterLoad table index :=
  Finset.sum_nonneg fun later _ => load_nonneg later

/-- There is a core left for a task that passes the test. -/
theorem PreAssigned.preCount_lt {index : ℕ} (hpre : PreAssigned table index) :
    preCount table index < cfg.numberOfCores := by
  have hlater := (laterLoad_nonneg index).trans hpre.2
  have hcores := nonneg_of_mul_nonneg_left hlater cfg.bound_pos
  have hless : (preCount table index : ℚ) < cfg.numberOfCores := by linarith
  exact_mod_cast hless

theorem preCount_succ_of (index : ℕ) (hpre : PreAssigned table index) :
    preCount table (index + 1) = preCount table index + 1 := by
  rw [preCount, if_pos (show Affordable .. from hpre)]

theorem preCount_succ_of_not (index : ℕ) (hpre : ¬PreAssigned table index) :
    preCount table (index + 1) = preCount table index := by
  rw [preCount, if_neg (show ¬Affordable .. from hpre), add_zero]

theorem free_length (table : TaskTable cfg) (index : ℕ) :
    (prepare table index).free.length + preCount table index =
      cfg.numberOfCores := by
  induction index with
  | zero => simp [prepare, preCount]
  | succ index ih =>
      by_cases hpre : PreAssigned table index
      · have hless := hpre.preCount_lt
        rw [preCount_succ_of index hpre]
        simp only [prepare, hpre, if_true]
        split
        · rename_i hfree
          rw [hfree, List.length_nil] at ih
          omega
        · rename_i core free hfree
          rw [hfree, List.length_cons] at ih
          rw [← ih]
          simp only
          omega
      · rw [preCount_succ_of_not index hpre]
        simp only [prepare, hpre, if_false]
        split <;> exact ih

/-- A task that passes the test takes the core on top of the stack. -/
theorem prepare_succ_of {index : ℕ} (hpre : PreAssigned table index) :
    ∃ core free, (prepare table index).free = core :: free ∧
      prepare table (index + 1) =
        ⟨free, ⟨piece table index, core, false⟩ :: (prepare table index).given,
          (prepare table index).waiting⟩ := by
  have hlength := free_length table index
  have hless := hpre.preCount_lt
  cases hfree : (prepare table index).free with
  | nil =>
      rw [hfree, List.length_nil] at hlength
      omega
  | cons core free =>
      refine ⟨core, free, rfl, ?_⟩
      simp [prepare, hfree, hpre]

theorem prepare_succ_of_not {index : ℕ} (hpre : ¬PreAssigned table index) :
    prepare table (index + 1) =
      { prepare table index with
        waiting := piece table index :: (prepare table index).waiting } := by
  simp only [prepare, hpre, if_false]
  split <;> rfl

/-- The induction over the pre-assign loop. -/
theorem prepare_induct (table : TaskTable cfg)
    {motive : ℕ → Prepared cfg → Prop}
    (start : motive 0 ⟨(List.finRange cfg.numberOfCores).reverse, [], []⟩)
    (assign : ∀ index core free given waiting, PreAssigned table index →
      prepare table index = ⟨core :: free, given, waiting⟩ →
      motive index ⟨core :: free, given, waiting⟩ →
      motive (index + 1)
        ⟨free, ⟨piece table index, core, false⟩ :: given, waiting⟩)
    (wait : ∀ index free given waiting, ¬PreAssigned table index →
      prepare table index = ⟨free, given, waiting⟩ →
      motive index ⟨free, given, waiting⟩ →
      motive (index + 1) ⟨free, given, piece table index :: waiting⟩)
    (index : ℕ) : motive index (prepare table index) := by
  induction index with
  | zero => exact start
  | succ index ih =>
      by_cases hpre : PreAssigned table index
      · obtain ⟨core, free, hfree, hnext⟩ := prepare_succ_of hpre
        rw [hnext]
        apply assign index core free _ _ hpre
        · rw [← hfree]
        · rw [← hfree]
          exact ih
      · rw [prepare_succ_of_not hpre]
        exact wait index _ _ _ hpre rfl ih

/-- The free cores and the cores handed out make up all cores. -/
theorem prepare_partition (table : TaskTable cfg) (index : ℕ) :
    (prepare table index).free.reverse ++
        (prepare table index).given.map Placement.core =
      List.finRange cfg.numberOfCores := by
  apply prepare_induct table
    (motive := fun _ prepared => prepared.free.reverse ++
      prepared.given.map Placement.core = List.finRange cfg.numberOfCores)
  · simp
  · intro index core free given waiting _ _ ih
    simpa using ih
  · intro index free given waiting _ _ ih
    exact ih

theorem given_length (table : TaskTable cfg) (index : ℕ) :
    (prepare table index).given.length = preCount table index := by
  have hpartition := congrArg List.length (prepare_partition table index)
  have hfree := free_length table index
  rw [List.length_append, List.length_reverse, List.length_map,
    List.length_finRange] at hpartition
  omega

/-- The waiting and the given tasks are the first tasks, each once. -/
theorem prepare_perm (table : TaskTable cfg) (index : ℕ) :
    ((prepare table index).waiting.map Piece.slot ++
      (prepare table index).given.map fun x => x.piece.slot).Perm
        (List.range index) := by
  apply prepare_induct table
    (motive := fun index prepared => (prepared.waiting.map Piece.slot ++
      prepared.given.map fun x => x.piece.slot).Perm (List.range index))
  · exact List.Perm.refl _
  · intro index core free given waiting _ _ ih
    rw [List.range_succ, List.map_cons]
    refine List.perm_middle.trans ?_
    exact (ih.cons index).trans (List.perm_append_singleton _ _).symm
  · intro index free given waiting _ _ ih
    rw [List.range_succ, List.map_cons]
    exact (ih.cons index).trans (List.perm_append_singleton _ _).symm

theorem waiting_length_le (table : TaskTable cfg) (index : ℕ) :
    (prepare table index).waiting.length ≤ index := by
  apply prepare_induct table
    (motive := fun index prepared => prepared.waiting.length ≤ index)
  · rfl
  · exact fun index _ _ _ _ _ _ ih => Nat.le_succ_of_le ih
  · exact fun index _ _ _ _ _ ih => Nat.succ_le_succ ih

/-- The given tasks are those that pass the test, each on its own piece. -/
theorem mem_given {index : ℕ} :
    ∀ x ∈ (prepare table index).given, x.body = false ∧
      x.piece = piece table x.piece.task ∧ x.piece.task < index ∧
      PreAssigned table x.piece.task := by
  apply prepare_induct table
    (motive := fun index prepared => ∀ x ∈ prepared.given, x.body = false ∧
      x.piece = piece table x.piece.task ∧ x.piece.task < index ∧
      PreAssigned table x.piece.task)
  · simp
  · intro index core free given waiting hpre _ ih
    rw [List.forall_mem_cons]
    refine ⟨⟨rfl, rfl, Nat.lt_succ_self index, hpre⟩, fun x hx => ?_⟩
    obtain ⟨hbody, hpiece, hless, hx⟩ := ih x hx
    exact ⟨hbody, hpiece, Nat.lt_succ_of_lt hless, hx⟩
  · intro index free given waiting _ _ ih x hx
    obtain ⟨hbody, hpiece, hless, hx⟩ := ih x hx
    exact ⟨hbody, hpiece, Nat.lt_succ_of_lt hless, hx⟩

theorem mem_waiting {index : ℕ} :
    ∀ p ∈ (prepare table index).waiting,
      p = piece table p.task ∧ p.task < index ∧ ¬PreAssigned table p.task := by
  apply prepare_induct table
    (motive := fun index prepared => ∀ p ∈ prepared.waiting,
      p = piece table p.task ∧ p.task < index ∧ ¬PreAssigned table p.task)
  · simp
  · intro index core free given waiting _ _ ih p hp
    obtain ⟨hpiece, hless, hp⟩ := ih p hp
    exact ⟨hpiece, Nat.lt_succ_of_lt hless, hp⟩
  · intro index free given waiting hpre _ ih
    rw [List.forall_mem_cons]
    refine ⟨⟨rfl, Nat.lt_succ_self index, hpre⟩, fun p hp => ?_⟩
    obtain ⟨hpiece, hless, hp⟩ := ih p hp
    exact ⟨hpiece, Nat.lt_succ_of_lt hless, hp⟩

theorem waiting_descending (index : ℕ) :
    (prepare table index).waiting.Pairwise fun p q => q.task < p.task := by
  apply prepare_induct table
    (motive := fun _ prepared =>
      prepared.waiting.Pairwise fun p q => q.task < p.task)
  · exact List.Pairwise.nil
  · exact fun _ _ _ _ _ _ _ ih => ih
  · intro index free given waiting _ hprepared ih
    refine List.pairwise_cons.mpr ⟨fun p hp => ?_, ih⟩
    have hmem : p ∈ (prepare table index).waiting := by
      rw [hprepared]
      exact hp
    exact (mem_waiting p hmem).2.1

theorem given_descending (table : TaskTable cfg) (index : ℕ) :
    (prepare table index).given.Pairwise fun x y =>
      y.piece.task < x.piece.task := by
  apply prepare_induct table
    (motive := fun _ prepared => prepared.given.Pairwise fun x y =>
      y.piece.task < x.piece.task)
  · exact List.Pairwise.nil
  · intro index core free given waiting _ hprepared ih
    refine List.pairwise_cons.mpr ⟨fun x hx => ?_, ih⟩
    have hmem : x ∈ (prepare table index).given := by
      rw [hprepared]
      exact hx
    exact (mem_given x hmem).2.2.1
  · exact fun _ _ _ _ _ _ ih => ih

/-- Every task that passes the test is given a core. -/
theorem exists_given {task index : ℕ} (hpre : PreAssigned table task)
    (htask : task < index) :
    ∃ x ∈ (prepare table index).given, x.piece.task = task := by
  induction index, htask using Nat.le_induction with
  | base =>
      obtain ⟨core, free, _, hnext⟩ := prepare_succ_of hpre
      rw [hnext]
      exact ⟨_, List.mem_cons_self .., rfl⟩
  | succ index _ ih =>
      obtain ⟨x, hx, htask⟩ := ih
      refine ⟨x, ?_, htask⟩
      by_cases hpre' : PreAssigned table index
      · obtain ⟨core, free, _, hnext⟩ := prepare_succ_of hpre'
        rw [hnext]
        exact List.mem_cons_of_mem _ hx
      · rw [prepare_succ_of_not hpre']
        exact hx

/-- Each of the first tasks has been given a core or waits. -/
theorem taskLoad_prepare (table : TaskTable cfg) (select : ℕ → Prop) [DecidablePred select]
    (index : ℕ) :
    taskLoad select ((prepare table index).given.map Placement.piece) +
        taskLoad select (prepare table index).waiting =
      ∑ task ∈ Finset.range index,
        if select task then load table task else 0 := by
  apply prepare_induct table
    (motive := fun index prepared =>
      taskLoad select (prepared.given.map Placement.piece) +
          taskLoad select prepared.waiting =
        ∑ task ∈ Finset.range index,
          if select task then load table task else 0)
  · simp
  · intro index core free given waiting _ _ ih
    rw [Finset.sum_range_succ, ← ih, List.map_cons, taskLoad_cons]
    change (if select index then load table index else 0) + _ + _ = _
    ring
  · intro index free given waiting _ _ ih
    rw [Finset.sum_range_succ, ← ih, taskLoad_cons]
    change _ + ((if select index then load table index else 0) + _) = _
    ring

theorem taskLoad_waiting (table : TaskTable cfg) (index : ℕ) :
    taskLoad (fun _ => True) (prepare table index).waiting =
      waitingLoad table index := by
  apply prepare_induct table
    (motive := fun index prepared =>
      taskLoad (fun _ => True) prepared.waiting = waitingLoad table index)
  · rfl
  · intro index core free given waiting hpre _ ih
    rw [waitingLoad, Finset.sum_range_succ, if_pos hpre, add_zero]
    exact ih
  · intro index free given waiting hpre _ ih
    rw [waitingLoad, Finset.sum_range_succ, if_neg hpre, taskLoad_cons,
      if_pos trivial, ih, add_comm]
    rfl

theorem map_load_waiting (table : TaskTable cfg) (index : ℕ) :
    (prepare table index).waiting.map Piece.load = waitingLoads table index := by
  apply prepare_induct table
    (motive := fun index prepared =>
      prepared.waiting.map Piece.load = waitingLoads table index)
  · rfl
  · intro index core free given waiting hpre _ ih
    rw [waitingLoads, List.range_succ, List.reverse_append]
    simpa [hpre, waitingLoads] using ih
  · intro index free given waiting hpre _ ih
    rw [waitingLoads, List.range_succ, List.reverse_append]
    simpa [hpre, waitingLoads, piece] using ih

theorem lastLoad_eq {index : ℕ} {x : Placement (CorePtr cfg)}
    {rest : List (Placement (CorePtr cfg))}
    (hgiven : (prepare table index).given = x :: rest) :
    x.piece.load = lastLoad table index := by
  revert hgiven
  apply prepare_induct table
    (motive := fun index prepared => prepared.given = x :: rest →
      x.piece.load = lastLoad table index)
  · simp
  · intro index core free given waiting hpre _ _ hgiven
    obtain ⟨rfl, rfl⟩ := List.cons.inj hgiven
    rw [lastLoad, if_pos hpre]
    rfl
  · intro index free given waiting hpre _ ih hgiven
    rw [lastLoad, if_neg hpre]
    exact ih hgiven

/-- The task given last passed the test when the others had their cores. -/
theorem given_eq_cons {index : ℕ} {x : Placement (CorePtr cfg)}
    {rest : List (Placement (CorePtr cfg))}
    (hgiven : (prepare table index).given = x :: rest) :
    rest = (prepare table x.piece.task).given ∧
      preCount table index = preCount table x.piece.task + 1 := by
  revert hgiven
  apply prepare_induct table
    (motive := fun index prepared => prepared.given = x :: rest →
      rest = (prepare table x.piece.task).given ∧
        preCount table index = preCount table x.piece.task + 1)
  · simp
  · intro index core free given waiting hpre hprepared _ hgiven
    obtain ⟨rfl, rfl⟩ := List.cons.inj hgiven
    exact ⟨by simp [piece, hprepared], preCount_succ_of index hpre⟩
  · intro index free given waiting hpre _ ih hgiven
    rw [preCount_succ_of_not index hpre]
    exact ih hgiven

/-- The tasks behind one have been given cores or wait. -/
theorem taskLoad_later (table : TaskTable cfg) (task : ℕ) :
    taskLoad (task < ·)
        ((prepare table cfg.numOfTask).given.map Placement.piece) +
        taskLoad (task < ·) (prepare table cfg.numOfTask).waiting =
      laterLoad table task := by
  rw [taskLoad_prepare, laterLoad, ← Finset.sum_filter]
  congr 1
  ext later
  rw [Finset.mem_filter, Finset.mem_range, Finset.mem_Ico]
  omega

theorem taskLoad_waiting_le (task : ℕ) :
    taskLoad (task < ·) (prepare table cfg.numOfTask).waiting ≤
      laterLoad table task := by
  have hgiven : 0 ≤ taskLoad (task < ·)
      ((prepare table cfg.numOfTask).given.map Placement.piece) := by
    apply taskLoad_nonneg
    intro p hp
    obtain ⟨x, hx, rfl⟩ := List.mem_map.mp hp
    rw [(mem_given x hx).2.1]
    exact load_nonneg _
  linarith [taskLoad_later table task]

/-- The tasks given after `task` carry at most the bound each. -/
theorem given_later_le (hle : ∀ index, load table index ≤ cfg.utilizationBound)
    {task index : ℕ} (htask : task < index) :
    taskLoad (task < ·) ((prepare table index).given.map Placement.piece) ≤
      ((preCount table index : ℚ) - preCount table (task + 1)) *
        cfg.utilizationBound := by
  induction index, htask using Nat.le_induction with
  | base =>
      have hnone : taskLoad (task < ·)
          ((prepare table (task + 1)).given.map Placement.piece) = 0 := by
        apply List.sum_eq_zero
        intro load hload
        obtain ⟨p, hp, rfl⟩ := List.mem_map.mp hload
        obtain ⟨x, hx, rfl⟩ := List.mem_map.mp hp
        have hless := (mem_given x hx).2.2.1
        rw [if_neg (by omega)]
      rw [hnone, sub_self, zero_mul]
  | succ index htask ih =>
      have hbound := cfg.bound_pos
      by_cases hpre : PreAssigned table index
      · obtain ⟨core, free, _, hnext⟩ := prepare_succ_of hpre
        rw [preCount_succ_of index hpre, hnext, List.map_cons, taskLoad_cons,
          if_pos (show task < (piece table index).task from htask)]
        have hload := hle index
        simp only [piece]
        push_cast
        linarith
      · rw [preCount_succ_of_not index hpre, prepare_succ_of_not hpre]
        exact ih

/-! ## What the normal-assign loops start from -/

theorem nodup_cores (table : TaskTable cfg) :
    (prepare table cfg.numOfTask).free.reverse.Nodup ∧
      ((prepare table cfg.numOfTask).given.map Placement.core).Nodup ∧
      ∀ core ∈ (prepare table cfg.numOfTask).given.map Placement.core,
        core ∉ (prepare table cfg.numOfTask).free := by
  have hnodup := List.nodup_finRange cfg.numberOfCores
  rw [← prepare_partition table cfg.numOfTask,
    List.nodup_append] at hnodup
  refine ⟨hnodup.1, hnodup.2.1, fun core hgiven hfree => ?_⟩
  rw [← List.mem_reverse] at hfree
  exact hnodup.2.2 core hfree core hgiven rfl

theorem card_free (table : TaskTable cfg) :
    (((prepare table cfg.numOfTask).free.toFinset.card : ℕ) : ℚ) =
      (cfg.numberOfCores : ℚ) - preCount table cfg.numOfTask := by
  have hlength := free_length table cfg.numOfTask
  rw [List.toFinset_card_of_nodup (List.nodup_reverse.mp (nodup_cores table).1),
    ← hlength, Nat.cast_add]
  ring

/-- The tasks behind the one given last fit on the free cores. -/
theorem later_of_last {x : Placement (CorePtr cfg)}
    {rest : List (Placement (CorePtr cfg))}
    (hgiven : (prepare table cfg.numOfTask).given = x :: rest) :
    laterLoad table x.piece.task ≤
      (prepare table cfg.numOfTask).free.toFinset.card *
        cfg.utilizationBound := by
  have hmem : x ∈ (prepare table cfg.numOfTask).given := by
    rw [hgiven]
    exact List.mem_cons_self ..
  have hlater := (mem_given x hmem).2.2.2.2
  rw [card_free, (given_eq_cons hgiven).2]
  push_cast
  rwa [← sub_sub]

theorem given_head {x : Placement (CorePtr cfg)}
    (hx : x ∈ (prepare table cfg.numOfTask).given)
    (hhead : ((prepare table cfg.numOfTask).given.map Placement.core).head? =
      some x.core) :
    ∃ rest, (prepare table cfg.numOfTask).given = x :: rest := by
  have hnodup := (nodup_cores table).2.1
  cases hgiven : (prepare table cfg.numOfTask).given with
  | nil =>
      rw [hgiven] at hx
      exact absurd hx List.not_mem_nil
  | cons y rest =>
      rw [hgiven] at hx hhead hnodup
      have hcore : y.core = x.core := by simpa using hhead
      rw [List.map_cons, List.nodup_cons] at hnodup
      rcases List.mem_cons.mp hx with rfl | htail
      · exact ⟨rest, rfl⟩
      · exact absurd (hcore ▸ List.mem_map_of_mem htail) hnodup.1

variable (table)

/-- What the normal-assign loop of the SPA2 branch starts from. -/
def spa2Problem : Problem (CorePtr cfg) where
  normal := (prepare table cfg.numOfTask).free.toFinset
  reserve := (prepare table cfg.numOfTask).given.map Placement.core
  given := (prepare table cfg.numOfTask).given
  pieces := (prepare table cfg.numOfTask).waiting
  bound := cfg.utilizationBound
  bound_pos := cfg.bound_pos
  apart core hreserve := by
    rw [List.mem_toFinset]
    exact (nodup_cores table).2.2 core hreserve
  given_reserve x hx := List.mem_map_of_mem hx
  reserve_given core hcore := List.mem_map.mp hcore
  given_whole x hx := (mem_given x hx).1
  given_single := List.pairwise_map.mp (nodup_cores table).2.1
  descending := waiting_descending cfg.numOfTask
  nonneg p hp := by
    rw [(mem_waiting p hp).1]
    exact load_nonneg _
  given_nonneg x hx := by
    rw [(mem_given x hx).2.1]
    exact load_nonneg _
  given_apart x hx p hp heq :=
    (mem_waiting p hp).2.2 (heq ▸ (mem_given x hx).2.2.2)
  affordable x hx hhead := by
    obtain ⟨rest, hgiven⟩ := given_head hx hhead
    exact (taskLoad_waiting_le _).trans (later_of_last hgiven)

/-- What the loop of the `#else` branch starts from. -/
def elseProblem : Problem (CorePtr cfg) where
  normal := Finset.univ
  reserve := []
  given := []
  pieces := (List.range cfg.numOfTask).reverse.map (piece table)
  bound := cfg.utilizationBound
  bound_pos := cfg.bound_pos
  apart := by simp
  given_reserve := by simp
  reserve_given := by simp
  given_whole := by simp
  given_single := List.Pairwise.nil
  descending := by
    rw [List.pairwise_map, List.pairwise_reverse]
    exact List.pairwise_lt_range
  nonneg p hp := by
    obtain ⟨index, _, rfl⟩ := List.mem_map.mp hp
    exact load_nonneg index
  given_nonneg := by simp
  given_apart := by simp
  affordable := by simp

/-! ## Balance -/

section Balance

variable {table}

/-- The tasks behind a heavy one that was left over nearly fill the free
cores, whichever cores the tasks behind it were given. -/
theorem later_of_heavy {task : ℕ}
    (hheavy : cfg.utilizationBound / (1 + cfg.utilizationBound) <
      load table task) (hpre : ¬PreAssigned table task) :
    ((cfg.numberOfCores : ℚ) - preCount table (task + 1) - 1) *
      cfg.utilizationBound < laterLoad table task := by
  rw [preCount_succ_of_not task hpre]
  exact lt_of_not_ge fun hfits => hpre ⟨hheavy, hfits⟩

variable (hle : ∀ index, load table index ≤ cfg.utilizationBound)
  (hpos : ∀ index < cfg.numOfTask, 0 < load table index)

include hle

theorem waiting_of_heavy {task : ℕ} (htask : task < cfg.numOfTask)
    (hheavy : cfg.utilizationBound / (1 + cfg.utilizationBound) <
      load table task) (hpre : ¬PreAssigned table task) :
    (spa2Problem table).normal.card * cfg.utilizationBound -
        cfg.utilizationBound <
      taskLoad (task < ·) (spa2Problem table).pieces := by
  have hlater := later_of_heavy hheavy hpre
  have hgiven := given_later_le hle htask
  have htotal := taskLoad_later table task
  rw [show (spa2Problem table).normal =
    (prepare table cfg.numOfTask).free.toFinset from rfl, card_free]
  change _ < taskLoad (task < ·) (prepare table cfg.numOfTask).waiting
  linarith

theorem waiting_of_heavy_of_given {task : ℕ}
    (hheavy : cfg.utilizationBound / (1 + cfg.utilizationBound) <
      load table task) (hpre : ¬PreAssigned table task)
    {x : Placement (CorePtr cfg)} {rest : List (Placement (CorePtr cfg))}
    (hx : (prepare table cfg.numOfTask).given = x :: rest)
    (hless : task < x.piece.task) :
    (spa2Problem table).normal.card * cfg.utilizationBound - x.piece.load <
      taskLoad (task < ·) (spa2Problem table).pieces := by
  have hlater := later_of_heavy hheavy hpre
  have htotal := taskLoad_later table task
  obtain ⟨hrest, hcount⟩ := given_eq_cons hx
  have hgiven := given_later_le hle hless
  rw [← hrest] at hgiven
  rw [hx, List.map_cons, taskLoad_cons, if_pos hless] at htotal
  rw [show (spa2Problem table).normal =
    (prepare table cfg.numOfTask).free.toFinset from rfl, card_free, hcount]
  change _ < taskLoad (task < ·) (prepare table cfg.numOfTask).waiting
  push_cast
  linarith

include hpos

theorem spa2_balanced (hone : cfg.utilizationBound ≤ 1) :
    (spa2Problem table).Balanced where
  bound_le_one := hone
  pos p hp := by
    obtain ⟨hpiece, hless, _⟩ := mem_waiting p hp
    rw [hpiece]
    exact hpos _ hless
  given_le x hx := by
    rw [(mem_given x hx).2.1]
    exact hle _
  given_heavy x hx := by
    rw [(mem_given x hx).2.1]
    exact (mem_given x hx).2.2.2.1
  light_or_heavy p hp := by
    obtain ⟨hpiece, hless, hpre⟩ := mem_waiting p hp
    by_cases hheavy : cfg.utilizationBound / (1 + cfg.utilizationBound) <
        load table p.task
    · refine .inr ⟨waiting_of_heavy hle hless hheavy hpre,
        fun x hx hhead hbehind => ?_⟩
      obtain ⟨rest, hgiven⟩ := given_head hx hhead
      exact waiting_of_heavy_of_given hle hheavy hpre hgiven hbehind
    · left
      rw [hpiece]
      exact le_of_not_gt hheavy

end Balance

end PicoSched.PreAssign
