import PicoSched.Allocation.Chains
import PicoSched.Allocation.Packing
import PicoSched.Model.TaskList

/-!
# What the cores really execute

The packing works with exact utilizations, the cores execute whole ticks.  A
split that cuts inside a tick leaves the fraction out of the body and hands it
to the last piece of the task, wherever that is packed.
-/

namespace PicoSched.Filling

variable {κ : Type*} [DecidableEq κ]

/-- The fraction of a tick that a body loses, as a share of its period. -/
def lostShare (period : ℕ → ℚ) (x : Placement κ) : ℚ :=
  if x.body then
    Int.fract (x.piece.load * period x.piece.task) / period x.piece.task
  else 0

/-- What the bodies of a task hand to its last piece. -/
def movedShare (period : ℕ → ℚ) (placed : List (Placement κ)) (task : ℕ) : ℚ :=
  (placed.map fun x =>
    if x.piece.task = task then lostShare period x else 0).sum

/-- On every core the fractions handed to the last pieces there fit into what
the load leaves below the bound and the body there leaves out. -/
def FractionsFit (P : Problem κ) (period : ℕ → ℚ) (plan : Plan κ) : Prop :=
  ∀ core, P.load plan core +
      (plan.placed.map fun x => if x.core = core then
        if x.body then 0 else movedShare period plan.placed x.piece.task
      else 0).sum ≤
    P.bound + (plan.placed.map fun x =>
      if x.core = core then lostShare period x else 0).sum

instance [Fintype κ] (P : Problem κ) (period : ℕ → ℚ) (plan : Plan κ) :
    Decidable (FractionsFit P period plan) :=
  inferInstanceAs (Decidable (∀ _, _ ≤ _))

variable {period : ℕ → ℚ} {placed : List (Placement κ)} {x : Placement κ}

omit [DecidableEq κ] in
theorem lostShare_nonneg (hperiod : ∀ task, 0 ≤ period task) :
    0 ≤ lostShare period x := by
  rw [lostShare]
  split
  · exact div_nonneg (Int.fract_nonneg _) (hperiod _)
  · exact le_rfl

omit [DecidableEq κ] in
theorem movedShare_nonneg (hperiod : ∀ task, 0 ≤ period task)
    (placed : List (Placement κ)) (task : ℕ) :
    0 ≤ movedShare period placed task := by
  apply List.sum_nonneg
  intro share hshare
  obtain ⟨x, _, rfl⟩ := List.mem_map.mp hshare
  split
  · exact lostShare_nonneg hperiod
  · exact le_rfl

omit [DecidableEq κ] in
theorem movedShare_cons (task : ℕ) :
    movedShare period (x :: placed) task =
      (if x.piece.task = task then lostShare period x else 0) +
        movedShare period placed task := by
  rw [movedShare, List.map_cons, List.sum_cons, movedShare]

omit [DecidableEq κ] in
/-- A piece placed whole hands nothing on. -/
theorem movedShare_whole (hwhole : x.body = false) (task : ℕ) :
    movedShare period (x :: placed) task = movedShare period placed task := by
  rw [movedShare_cons, lostShare, hwhole]
  simp

omit [DecidableEq κ] in
theorem movedShare_of_ne {task : ℕ} (hne : x.piece.task ≠ task) :
    movedShare period (x :: placed) task = movedShare period placed task := by
  rw [movedShare_cons, if_neg hne, zero_add]

omit [DecidableEq κ] in
/-- A split between two ticks loses nothing. -/
theorem lostShare_of_whole (hwhole : x.body = true →
    Int.fract (x.piece.load * period x.piece.task) = 0) :
    lostShare period x = 0 := by
  rw [lostShare]
  split
  · rename_i hbody
    rw [hwhole hbody, zero_div]
  · rfl

omit [DecidableEq κ] in
/-- Splits between two ticks hand nothing on. -/
theorem movedShare_of_whole (hwhole : ∀ x ∈ placed, x.body = true →
    Int.fract (x.piece.load * period x.piece.task) = 0) (task : ℕ) :
    movedShare period placed task = 0 := by
  apply List.sum_eq_zero
  intro share hshare
  obtain ⟨x, hx, rfl⟩ := List.mem_map.mp hshare
  split
  · exact lostShare_of_whole (hwhole x hx)
  · rfl

end PicoSched.Filling

namespace PicoSched.Refinement

open Filling Kernel Loop TaskManager Main PreAssign

variable {cfg : Config} {creates : ℕ → Option TaskHandle}
  {table : TaskTable cfg}

/-- `Period` of a declared task. -/
def taskPeriod (table : TaskTable cfg) (task : ℕ) : ℚ :=
  if htask : task < cfg.numOfTask then (table.task ⟨task, htask⟩).period else 0

/-- The load of the pieces given to `Assign_task` for a core, by what they
execute. -/
def runtimeLoad (memory : Memory cfg) (core : CorePtr cfg) : ℚ :=
  (memory.assigned.map fun entry => if entry.2 = core then
    ((memory.taskList entry.1).runtime : ℚ) /
      (memory.taskList entry.1).period
  else 0).sum

/-- The packing of the task list has room for the fractions of ticks its
splits move. -/
def FractionsFitIn (table : TaskTable cfg) : Prop :=
  FractionsFit (spa2Problem table) (taskPeriod table) (packing table)

instance (table : TaskTable cfg) : Decidable (FractionsFitIn table) :=
  inferInstanceAs (Decidable (FractionsFit ..))

theorem taskPeriod_nonneg (table : TaskTable cfg) (task : ℕ) :
    0 ≤ taskPeriod table task := by
  rw [taskPeriod]
  split
  · exact Nat.cast_nonneg _
  · exact le_rfl

theorem Carries.period_eq {p : Piece} {info : TaskInfo}
    (hcarries : Carries table p info) :
    (info.period : ℚ) = taskPeriod table p.task := by
  obtain ⟨index, hindex, hperiod, _⟩ := hcarries.origin
  rw [hperiod, ← hindex, taskPeriod, dif_pos index.isLt]

theorem Carries.period_pos {p : Piece} {info : TaskInfo}
    (hcarries : Carries table p info)
    (hperiod : ∀ index, 0 < (table.task index).period) :
    0 < taskPeriod table p.task := by
  obtain ⟨index, hindex, _⟩ := hcarries.origin
  rw [← hindex, taskPeriod, dif_pos index.isLt]
  exact Nat.cast_pos.mpr (hperiod index)

section Shares

variable {P : Problem (CorePtr cfg)} {stack : TaskStack cfg}
  {memory : Memory cfg} {plan : Plan (CorePtr cfg)}

/-- What a placed piece executes, as a share of its period. -/
def executedShare (table : TaskTable cfg)
    (placed : List (Placement (CorePtr cfg))) (x : Placement (CorePtr cfg)) : ℚ :=
  if x.body then x.piece.load - lostShare (taskPeriod table) x
  else x.piece.load + movedShare (taskPeriod table) placed x.piece.task

/-- The runtimes in memory, in terms of the packing. -/
structure Shares (table : TaskTable cfg) (P : Problem (CorePtr cfg))
    (memory : Memory cfg) (plan : Plan (CorePtr cfg)) : Prop where
  waiting : ∀ task : TaskPtr cfg, ∀ p ∈ plan.queue, task.val = p.slot →
    (memory.taskList task).runtime < 2 ^ 16 ∧
      ((memory.taskList task).runtime : ℚ) =
        (p.load + movedShare (taskPeriod table) plan.placed p.task) *
          taskPeriod table p.task
  placed : ∀ task : TaskPtr cfg, ∀ x ∈ plan.placed, task.val = x.piece.slot →
    ((memory.taskList task).runtime : ℚ) =
      executedShare table plan.placed x * taskPeriod table x.piece.task
  given : ∀ task : TaskPtr cfg, ∀ x ∈ P.given, task.val = x.piece.slot →
    ((memory.taskList task).runtime : ℚ) =
      x.piece.load * taskPeriod table x.piece.task

variable {core : CorePtr cfg} {placed : List (Placement (CorePtr cfg))}
  {piece : Piece} {pieces : List Piece} {task : TaskPtr cfg}

theorem executedShare_cons {x y : Placement (CorePtr cfg)}
    (hmoved : x.body = false →
      movedShare (taskPeriod table) (y :: placed) x.piece.task =
        movedShare (taskPeriod table) placed x.piece.task) :
    executedShare table (y :: placed) x = executedShare table placed x := by
  rw [executedShare, executedShare]
  cases hbody : x.body with
  | false => rw [hmoved hbody]
  | true => rfl

theorem Shares.fit
    (hshares : Shares table P memory ⟨placed, piece :: pieces⟩) :
    Shares table P (assignTask task core memory)
      ⟨⟨piece, core, false⟩ :: placed, pieces⟩ := by
  have hmoved : ∀ number, movedShare (taskPeriod table)
      ((⟨piece, core, false⟩ : Placement (CorePtr cfg)) :: placed) number =
        movedShare (taskPeriod table) placed number := movedShare_whole rfl
  constructor
  · intro other p hp hslot
    rw [hmoved]
    exact hshares.waiting other p (List.mem_cons_of_mem _ hp) hslot
  · intro other x hx hslot
    rw [executedShare_cons fun _ => hmoved x.piece.task]
    rcases List.mem_cons.mp hx with rfl | hx
    · exact (hshares.waiting other piece (List.mem_cons_self ..) hslot).2
    · exact hshares.placed other x hx hslot
  · exact hshares.given

/-- The ticks of a body, and the fraction it loses. -/
theorem floor_ticks {ticks period : ℚ} (hticks : 0 ≤ ticks)
    (hperiod : 0 < period) :
    (⌊ticks⌋₊ : ℚ) = ticks - Int.fract ticks / period * period := by
  rw [div_mul_cancel₀ _ hperiod.ne', natCast_floor_eq_intCast_floor hticks,
    Int.self_sub_fract]

/-- A split hands the fraction of a tick to the tail. -/
theorem Shares.split {room : ℚ}
    (hshares : Shares table P memory ⟨placed, piece :: pieces⟩)
    (hrep : Represents creates table P stack memory ⟨placed, piece :: pieces⟩)
    (hreach : P.Reaches ⟨placed, piece :: pieces⟩)
    (hperiod : ∀ index, 0 < (table.task index).period)
    (htask : task.val = piece.slot) (hslot : memory.currIdx < cfg.maxNumTasks)
    (hpos : 0 ≤ room) (hroom : room ≤ piece.load) :
    Shares table P
      (assignTask task core (splitMemory creates task ⟨memory.currIdx, hslot⟩
        core room { memory with currIdx := memory.currIdx + 1 }))
      ⟨⟨{ piece with load := room }, core, true⟩ :: placed,
        ⟨memory.currIdx, piece.task, piece.load - room⟩ :: pieces⟩ := by
  generalize hafter : assignTask task core (splitMemory creates task
    ⟨memory.currIdx, hslot⟩ core room
    { memory with currIdx := memory.currIdx + 1 }) = after
  have hrecords : SplitRecords room memory after task ⟨memory.currIdx, hslot⟩
      _ _ := hafter ▸ splitRecords_splitMemory hrep htask hslot
  have hcarries := (hrep.waiting task piece (List.mem_cons_self ..) htask).1
  have hperiodpos := hcarries.period_pos hperiod
  obtain ⟨hless, hruntime⟩ :=
    hshares.waiting task piece (List.mem_cons_self ..) htask
  -- the body gets no more ticks than there are
  have hmovedpos := movedShare_nonneg (taskPeriod_nonneg table) placed
    piece.task
  have hticks : room * taskPeriod table piece.task ≤
      (memory.taskList task).runtime := by
    rw [hruntime]
    apply mul_le_mul_of_nonneg_right _ hperiodpos.le
    linarith
  rw [← hcarries.period_eq] at hticks
  obtain ⟨hbody, hfloor, hrest⟩ := runtime_split hticks hless
  have hfraction := floor_ticks
    (mul_nonneg hpos (taskPeriod_nonneg table piece.task)) hperiodpos
  rw [← hcarries.period_eq] at hfraction
  have hbodyRuntime : ((after.taskList task).runtime : ℚ) =
      (room - lostShare (taskPeriod table)
        ⟨{ piece with load := room }, core, true⟩) *
          taskPeriod table piece.task := by
    rw [hrecords.bodyRecord]
    change ((toUint16 (room * (memory.taskList task).period) : ℕ) : ℚ) = _
    rw [hbody, hfraction, hcarries.period_eq, lostShare, if_pos rfl]
    ring
  have htailRuntime :
      (after.taskList ⟨memory.currIdx, hslot⟩).runtime < 2 ^ 16 ∧
        ((after.taskList ⟨memory.currIdx, hslot⟩).runtime : ℚ) =
          (piece.load - room + (lostShare (taskPeriod table)
              ⟨{ piece with load := room }, core, true⟩ +
            movedShare (taskPeriod table) placed piece.task)) *
              taskPeriod table piece.task := by
    rw [hrecords.tailRecord]
    change toUint16 _ < _ ∧ ((toUint16 _ : ℕ) : ℚ) = _
    rw [hrest, Nat.cast_sub hfloor, hruntime, hfraction, hcarries.period_eq,
      lostShare, if_pos rfl]
    refine ⟨(Nat.sub_le _ _).trans_lt hless, ?_⟩
    ring
  have hmoved : movedShare (taskPeriod table)
      (⟨{ piece with load := room }, core, true⟩ :: placed) piece.task =
        lostShare (taskPeriod table) ⟨{ piece with load := room }, core, true⟩ +
          movedShare (taskPeriod table) placed piece.task := by
    rw [movedShare_cons, if_pos rfl]
  have hnodup := hrep.nodup
  rw [slotsInUse, List.map_cons, List.cons_append, List.nodup_cons] at hnodup
  have hsame : ∀ other : TaskPtr cfg, other.val ≠ piece.slot →
      other.val < memory.currIdx →
        after.taskList other = memory.taskList other := by
    intro other hother hused
    apply hrecords.others
    · exact fun heq => hother (heq ▸ htask)
    · exact fun heq => hused.ne (congrArg Fin.val heq)
  have hplacedSame : ∀ other : TaskPtr cfg, ∀ x ∈ placed ++ P.given,
      other.val = x.piece.slot →
        after.taskList other = memory.taskList other := by
    intro other x hx hval
    apply hsame other
    · intro heq
      apply hnodup.1
      rw [← heq, hval]
      exact List.mem_append_right _
        (List.mem_map_of_mem (f := fun x => x.piece.slot) hx)
    · rw [hval]
      exact hrep.slot_lt.2 x hx
  constructor
  · intro other p hp hval
    rcases List.mem_cons.mp hp with rfl | hp
    · obtain rfl : other = ⟨memory.currIdx, hslot⟩ := Fin.ext hval
      rw [hmoved]
      exact htailRuntime
    · have hlater := (List.pairwise_cons.mp hreach.descending).1 p hp
      rw [movedShare_of_ne hlater.ne', hsame other]
      · exact hshares.waiting other p (List.mem_cons_of_mem _ hp) hval
      · intro heq
        apply hnodup.1
        rw [← heq, hval]
        exact List.mem_append_left _ (List.mem_map_of_mem hp)
      · rw [hval]
        exact hrep.slot_lt.1 p (List.mem_cons_of_mem _ hp)
  · intro other x hx hval
    rcases List.mem_cons.mp hx with rfl | hx
    · obtain rfl : other = task := Fin.ext (hval.trans htask.symm)
      exact hbodyRuntime
    · rw [hplacedSame other x (List.mem_append_left _ hx) hval,
        hshares.placed other x hx hval, executedShare_cons]
      intro hwhole
      apply movedShare_of_ne
      intro heq
      have hbehind := (hreach.behind x hx piece (List.mem_cons_self ..)).2 heq
      exact Bool.false_ne_true (hwhole.symm.trans hbehind)
  · intro other x hx hval
    rw [hplacedSame other x (List.mem_append_right _ hx) hval]
    exact hshares.given other x hx hval

end Shares

/-! ## The run -/

theorem load_mul_taskPeriod (hperiod : ∀ index, 0 < (table.task index).period)
    {task : TaskPtr cfg} {p : Piece} (hpiece : p = piece table p.task)
    (htask : p.task < cfg.numOfTask) (hslot : task.val = p.slot) :
    (initialInfo creates table cfg.numOfTask task).runtime < 2 ^ 16 ∧
      ((initialInfo creates table cfg.numOfTask task).runtime : ℚ) =
        p.load * taskPeriod table p.task := by
  have hval : task.val = p.task := hslot.trans (congrArg Piece.slot hpiece)
  have hload : p.load = load table p.task := congrArg Piece.load hpiece
  have horiginal : task = cfg.original ⟨p.task, htask⟩ := Fin.ext hval
  have hpos : (0 : ℚ) < (table.task ⟨p.task, htask⟩).period :=
    Nat.cast_pos.mpr (hperiod ⟨p.task, htask⟩)
  have hruntime : (initialInfo creates table cfg.numOfTask task).runtime =
      (table.task ⟨p.task, htask⟩).runtime := by
    rw [initialInfo, if_pos (hval ▸ htask), horiginal]
    rfl
  have hticks : p.load * taskPeriod table p.task =
      (table.task ⟨p.task, htask⟩).runtime := by
    rw [hload, load, dif_pos htask, taskPeriod, dif_pos htask,
      div_mul_cancel₀ _ hpos.ne']
  rw [hruntime, hticks]
  exact ⟨table.runtime_lt _, rfl⟩

theorem shares_start (hperiod : ∀ index, 0 < (table.task index).period)
    {start : State cfg} (hstart : Chosen creates table cfg.numOfTask start) :
    Shares table (spa2Problem table) start.memory
      ⟨[], (spa2Problem table).pieces⟩ := by
  constructor
  · intro task p hp hslot
    obtain ⟨hpiece, htask, _⟩ := mem_waiting p hp
    rw [hstart.taskList, movedShare, List.map_nil, List.sum_nil, add_zero]
    exact load_mul_taskPeriod hperiod hpiece htask hslot
  · exact fun _ x hx => absurd hx List.not_mem_nil
  · intro task x hx hslot
    obtain ⟨_, hpiece, htask, _⟩ := mem_given x hx
    rw [hstart.taskList]
    exact (load_mul_taskPeriod hperiod hpiece htask hslot).2

theorem shares_kept (hperiod : ∀ index, 0 < (table.task index).period) :
    Kept creates table (Shares table (spa2Problem table)) := by
  intro state after plan plan' core hstate htarget hplaces hshares
  have hrep := hstate.represents
  have hopen := htarget.open_core
  generalize after.uq = uq at hplaces
  generalize after.memory = memory at hplaces ⊢
  cases hplaces with
  | fit _ _ => exact hshares.fit
  | @split task rest placed piece pieces room hentries hslot hroom hover =>
      have hqueue := hrep.queue
      rw [hentries, List.map_cons, List.map_cons, List.cons.injEq] at hqueue
      apply hshares.split hrep hstate.reaches hperiod hqueue.1 hslot
      · rw [hroom]
        exact (sub_pos.mpr hopen).le
      · linarith

/-- Nothing is handed to a task given beforehand. -/
theorem executedShare_given {P : Problem (CorePtr cfg)}
    {plan : Plan (CorePtr cfg)} (hreach : P.Reaches plan)
    {x : Placement (CorePtr cfg)} (hx : x ∈ P.given) :
    executedShare table plan.placed x = x.piece.load := by
  have hmoved : movedShare (taskPeriod table) plan.placed x.piece.task = 0 := by
    apply List.sum_eq_zero
    intro share hshare
    obtain ⟨y, hy, rfl⟩ := List.mem_map.mp hshare
    obtain ⟨q, hq, htask⟩ := hreach.placed_task y hy
    rw [if_neg]
    exact fun heq => P.given_apart x hx q hq (heq.symm.trans htask.symm)
  rw [executedShare, P.given_whole x hx, hmoved]
  simp

/-- What a core executes, in terms of the packing. -/
theorem Represents.runtimeLoad_eq {P : Problem (CorePtr cfg)}
    {stack : TaskStack cfg} {memory : Memory cfg} {plan : Plan (CorePtr cfg)}
    (hrep : Represents creates table P stack memory plan)
    (hreach : P.Reaches plan) (hshares : Shares table P memory plan)
    (hperiod : ∀ index, 0 < (table.task index).period) (core : CorePtr cfg) :
    runtimeLoad memory core + (plan.placed.map fun x =>
        if x.core = core then lostShare (taskPeriod table) x else 0).sum =
      P.load plan core + (plan.placed.map fun x => if x.core = core then
        if x.body then 0
        else movedShare (taskPeriod table) plan.placed x.piece.task
      else 0).sum := by
  have hshare : ∀ task : TaskPtr cfg, ∀ x ∈ plan.placed ++ P.given,
      task.val = x.piece.slot →
        ((memory.taskList task).runtime : ℚ) / (memory.taskList task).period =
          executedShare table plan.placed x := by
    intro task x hx hslot
    have hcarries := (hrep.placed task x hx hslot).1
    rw [hcarries.period_eq, div_eq_iff (hcarries.period_pos hperiod).ne']
    rcases List.mem_append.mp hx with hplaced | hgiven
    · exact hshares.placed task x hplaced hslot
    · rw [executedShare_given hreach hgiven]
      exact hshares.given task x hgiven hslot
  have hgiven : (P.given.map fun x => if x.core = core then
      executedShare table plan.placed x else 0).sum = coreLoad P.given core := by
    refine congrArg List.sum (List.map_congr_left fun x hx => ?_)
    rw [executedShare_given hreach hx]
  have hplaced : (plan.placed.map fun x => if x.core = core then
        executedShare table plan.placed x else 0).sum +
      (plan.placed.map fun x =>
        if x.core = core then lostShare (taskPeriod table) x else 0).sum =
      coreLoad plan.placed core + (plan.placed.map fun x =>
        if x.core = core then
          if x.body then 0
          else movedShare (taskPeriod table) plan.placed x.piece.task
        else 0).sum := by
    rw [coreLoad, ← List.sum_map_add, ← List.sum_map_add]
    refine congrArg List.sum (List.map_congr_left fun x _ => ?_)
    by_cases hcore : x.core = core
    · cases hbody : x.body with
      | false => simp [hcore, hbody, executedShare, lostShare]
      | true => simp [hcore, hbody, executedShare]
    · simp [hcore]
  calc
    runtimeLoad memory core + _ =
        (((plan.placed ++ P.given).map fun x => if x.core = core then
          executedShare table plan.placed x else 0).sum + _) := by
      rw [runtimeLoad, hrep.sum_assigned hshare core]
    _ = _ := by
      rw [List.map_append, List.sum_append, hgiven, Problem.load, add_right_comm,
        hplaced]
      ring

/-- The cores execute no more than the bound exactly when the packing has room
for the fractions of ticks that are moved. -/
theorem runtimeLoad_le_iff (hperiod : ∀ index, 0 < (table.task index).period)
    {final : State cfg} (hrun : spa2 creates table = .done final) :
    (∀ core, runtimeLoad final.memory core ≤ cfg.utilizationBound) ↔
      FractionsFitIn table := by
  obtain ⟨hstate, hshares, _⟩ :=
    spa2_packing (shares_kept hperiod) (fun _ => shares_start hperiod) hrun
  have hload := hstate.represents.runtimeLoad_eq hstate.reaches hshares hperiod
  apply forall_congr'
  intro core
  have hcore := hload core
  have hbound : (spa2Problem table).bound = cfg.utilizationBound := rfl
  rw [hbound, ← hcore, add_le_add_iff_right]

/-- Three equal tasks on two cores. -/
def slackConfig : Config := .checked 3 2 (7 / 10) (by norm_num)

def slackTable : TaskTable slackConfig :=
  TaskTable.ofRows slackConfig ![.mk 2 5 3, .mk 2 5 2, .mk 2 5 1]

/-- The body of the first task loses half a tick, and its tail is
packed where there is room for them. -/
theorem slackTable_runtimeLoad :
    ∃ final, spa2 some slackTable = .done final ∧
      final.memory.splits.length = 1 ∧
      ∀ core, runtimeLoad final.memory core ≤ slackConfig.utilizationBound := by
  have hfinal : (spa2 some slackTable).final.map
      (fun state => state.memory.splits.length) = some 1 := by
    decide +kernel
  obtain ⟨final, hstate, hsplits⟩ := Option.map_eq_some_iff.mp hfinal
  have hrun := Outcome.eq_done_of_final hstate
  have hperiod : ∀ index, 0 < (slackTable.task index).period := by
    decide +kernel
  exact ⟨final, hrun, hsplits,
    (runtimeLoad_le_iff hperiod hrun).mpr (by decide +kernel)⟩

/-- The tail of the first task of the repository's list has utilization
`697 / 105000` and runs for 1 tick in 30, on top of 36 ticks in 50. -/
theorem mainTable_runtimeLoad :
    (∀ index, 0 < (mainTable.task index).runtime ∧
        (mainTable.task index).runtime ≤ (mainTable.task index).period ∧
        ((mainTable.task index).runtime : ℚ) / (mainTable.task index).period ≤
          mainConfig.utilizationBound) ∧
      ∃ final, spa2 some mainTable = .done final ∧
        ∃ core, mainConfig.utilizationBound <
          runtimeLoad final.memory core := by
  refine ⟨by decide +kernel, ?_⟩
  have hfinal : (spa2 some mainTable).final.any (fun state =>
      decide (∃ core, mainConfig.utilizationBound <
        runtimeLoad state.memory core)) = true := by
    decide +kernel
  rw [Option.any_eq_true] at hfinal
  obtain ⟨final, hstate, hcore⟩ := hfinal
  exact ⟨final, Outcome.eq_done_of_final hstate, of_decide_eq_true hcore⟩

end PicoSched.Refinement
