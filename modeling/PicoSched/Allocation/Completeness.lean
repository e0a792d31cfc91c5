import PicoSched.Allocation.Capacity

/-!
# When the SPA2 allocation places every piece

A feasible task set is allocated completely unless the pre-assign loop takes
every core while tasks are left, or leaves them more than the ordinary cores
and the first reserve core can take.
-/

namespace PicoSched.Refinement

open BoundedStack Filling Loop TaskManager Main PreAssign

variable {cfg : Config} {creates : ℕ → Option TaskHandle}
  {table : TaskTable cfg}

/-- Tasks that each fit on a core. -/
structure Sized (table : TaskTable cfg) : Prop where
  runtime_pos : ∀ index, 0 < (table.task index).runtime
  period_pos : ∀ index, 0 < (table.task index).period
  load_le : ∀ index, ((table.task index).runtime : ℚ) /
    (table.task index).period ≤ cfg.utilizationBound

/-- The total utilization of the task list. -/
def totalLoad (table : TaskTable cfg) : ℚ :=
  ∑ index : Fin cfg.numOfTask,
    ((table.task index).runtime : ℚ) / (table.task index).period

/-- The run of the SPA2 branch places every piece: it ends by its guard with
an empty queue, every task and every tail has been assigned once, the slots
suffice, nothing was popped from an empty stack, and the loop never looked for
the least loaded core of an empty one. -/
def Complete (creates : ℕ → Option TaskHandle) (table : TaskTable cfg) : Prop :=
  (∃ final, spa2 creates table = .done final ∧ final.uq.entries = [] ∧
    (∀ task : TaskPtr cfg,
      task.val < cfg.numOfTask ∨ task ∈ final.memory.splits.map Prod.snd →
        (final.memory.assigned.map Prod.fst).count task = 1) ∧
    final.memory.splits.length ≤ cfg.numberOfCores - 1 ∧
    ∀ message ∈ [.noMoreNewTask, .taskStackUnderflow, .coreStackUnderflow,
      .allProcessorsFullyUtilized], message ∉ final.memory.printed) ∧
  ∀ state, Spa2Head creates table state → state.uq.isEmpty = false →
    state.coreManager.list.entries ≠ []

/-- The pre-assign loop leaves a core when it leaves tasks, and the ordinary
cores with the first reserve core can take them. -/
def CanFinish (table : TaskTable cfg) : Prop :=
  (preCount table cfg.numOfTask = cfg.numberOfCores →
    preCount table cfg.numOfTask = cfg.numOfTask) ∧
  (0 < preCount table cfg.numOfTask →
    preCount table cfg.numOfTask < cfg.numberOfCores →
      waitingLoad table cfg.numOfTask + lastLoad table cfg.numOfTask ≤
        ((cfg.numberOfCores : ℚ) - preCount table cfg.numOfTask + 1) *
          cfg.utilizationBound)

instance (table : TaskTable cfg) : Decidable (CanFinish table) :=
  inferInstanceAs (Decidable (_ ∧ _))

/-! ## The table and the problem -/

theorem Sized.load_le_bound (hsized : Sized table) (index : ℕ) :
    load table index ≤ cfg.utilizationBound := by
  by_cases hindex : index < cfg.numOfTask
  · have hload := load_original table ⟨index, hindex⟩
    exact hload ▸ hsized.load_le ⟨index, hindex⟩
  · rw [load, dif_neg hindex]
    exact cfg.bound_pos.le

theorem Sized.load_pos (hsized : Sized table) {index : ℕ}
    (hindex : index < cfg.numOfTask) : 0 < load table index := by
  have hruntime := hsized.runtime_pos ⟨index, hindex⟩
  have hperiod := hsized.period_pos ⟨index, hindex⟩
  rw [load, dif_pos hindex]
  exact div_pos (Nat.cast_pos.mpr hruntime) (Nat.cast_pos.mpr hperiod)

/-- With a bound of at most one, a task is done within its period. -/
theorem Sized.runtime_le (hsized : Sized table)
    (hone : cfg.utilizationBound ≤ 1) (index : Fin cfg.numOfTask) :
    (table.task index).runtime ≤ (table.task index).period := by
  have hload := (hsized.load_le index).trans hone
  rw [div_le_one (Nat.cast_pos.mpr (hsized.period_pos index))] at hload
  exact Nat.cast_le.mp hload

theorem Sized.pieces_pos (hsized : Sized table) :
    ∀ p ∈ (spa2Problem table).pieces, 0 < p.load := by
  intro p hp
  obtain ⟨hpiece, hless, _⟩ := mem_waiting p hp
  rw [hpiece]
  exact hsized.load_pos hless

theorem spa2_total (table : TaskTable cfg) :
    (spa2Problem table).total = totalLoad table := by
  have hall := taskLoad_prepare table (fun _ => True) cfg.numOfTask
  simp only [if_true] at hall
  exact hall.trans (sum_table table)

theorem mem_normal_or_reserve (table : TaskTable cfg) (core : CorePtr cfg) :
    core ∈ (spa2Problem table).normal ∨ core ∈ (spa2Problem table).reserve := by
  have hmem := List.mem_finRange core
  rw [← prepare_partition table cfg.numOfTask, List.mem_append,
    List.mem_reverse] at hmem
  rwa [Spa2State.normal_eq, List.mem_toFinset]

theorem given_add_waiting (table : TaskTable cfg) :
    (prepare table cfg.numOfTask).waiting.length +
      preCount table cfg.numOfTask = cfg.numOfTask := by
  have hlength := (prepare_perm table cfg.numOfTask).length_eq
  rw [List.length_append, List.length_map, List.length_map, given_length,
    List.length_range] at hlength
  exact hlength

/-! ## Iterations under the condition -/

section Proceeds

variable {state : State cfg} {plan : Plan (CorePtr cfg)}

/-- Without ordinary cores no task is left. -/
theorem CanFinish.normal_nonempty (hcan : CanFinish table)
    (hstate : Spa2State creates table state plan) (hqueue : plan.queue ≠ []) :
    (spa2Problem table).normal ≠ ∅ := by
  intro hnormal
  have hcard := card_free table
  rw [← Spa2State.normal_eq, hnormal, Finset.card_empty, Nat.cast_zero] at hcard
  have hcount : preCount table cfg.numOfTask = cfg.numberOfCores := by
    have hcast : (preCount table cfg.numOfTask : ℚ) = cfg.numberOfCores := by
      linarith
    exact_mod_cast hcast
  have hnone := given_add_waiting table
  rw [hcan.1 hcount] at hnone
  have hlength := hstate.reaches.queue_length_le
  change plan.queue.length ≤ (prepare table cfg.numOfTask).waiting.length
    at hlength
  exact hqueue (List.length_eq_zero_iff.mp (by omega))

/-- The first reserve core is open when every ordinary core is full. -/
theorem CanFinish.reserve_open (hcan : CanFinish table) (hsized : Sized table)
    (hstate : Spa2State creates table state plan) (hqueue : plan.queue ≠ [])
    (hnormal : (spa2Problem table).normal.Nonempty)
    (hfull : ∀ core ∈ (spa2Problem table).normal,
      cfg.utilizationBound ≤ (spa2Problem table).load plan core)
    {core : CorePtr cfg} (hhead : (spa2Problem table).reserve.head? = some core) :
    (spa2Problem table).load plan core < cfg.utilizationBound := by
  by_contra hopen
  obtain ⟨x, hx, rfl⟩ := (spa2Problem table).reserve_given core
    (List.mem_of_head? hhead)
  obtain ⟨rest, hgiven⟩ := given_head hx hhead
  have hcard := card_free table
  have hpositive := Finset.card_pos.mpr hnormal
  have hless : preCount table cfg.numOfTask < cfg.numberOfCores := by
    have hcast : (0 : ℚ) < cfg.numberOfCores - preCount table cfg.numOfTask := by
      rw [← hcard]
      exact_mod_cast hpositive
    exact_mod_cast sub_pos.mp hcast
  have hcount : 0 < preCount table cfg.numOfTask := by
    rw [← given_length, hgiven]
    exact Nat.succ_pos _
  have hroom := hcan.2 hcount hless
  have hused := hstate.reaches.sum_used hx hhead
  have hall : ((spa2Problem table).normal.card : ℚ) * cfg.utilizationBound ≤
      ∑ core ∈ (spa2Problem table).normal, (spa2Problem table).load plan core := by
    rw [← nsmul_eq_mul]
    exact Finset.card_nsmul_le_sum _ _ _ hfull
  have htask := hstate.reaches.taskLoad_eq fun _ => True
  have hwaiting := taskLoad_waiting table cfg.numOfTask
  change taskLoad _ (spa2Problem table).pieces = _ at hwaiting
  have hremaining : 0 < taskLoad (fun _ => True) plan.queue := by
    have hsum := hstate.reaches.sum_load
    have hlt := hstate.reaches.sum_load_lt hsized.pieces_pos hqueue
    rw [Problem.total] at hlt
    linarith
  rw [← lastLoad_eq hgiven, ← hcard, ← Spa2State.normal_eq] at hroom
  rw [not_lt] at hopen
  linarith

/-- Under the condition every iteration places a piece. -/
theorem CanFinish.proceeds (hcan : CanFinish table) (hsized : Sized table)
    (htotal : totalLoad table ≤ cfg.numberOfCores * cfg.utilizationBound)
    (hstate : Spa2State creates table state plan)
    (hguard : (normalAssign creates).guard state = true) :
    ∃ after, normalAssignBody creates state = .ok (.next after) := by
  have hqueue : plan.queue ≠ [] := by
    simpa [normalAssign, hstate.represents.guard_eq] using hguard
  have hfits : (spa2Problem table).total ≤
      Fintype.card (CorePtr cfg) * (spa2Problem table).bound := by
    rw [spa2_total, Fintype.card_fin]
    exact htotal
  have hiteration := hstate.iteration hguard
  generalize hbody : normalAssignBody creates state = result at hiteration
  cases hiteration with
  | noCore hnormal => exact absurd hnormal (hcan.normal_nonempty hstate hqueue)
  | noReserve hnormal hfull hreserve =>
      obtain ⟨core, hopen⟩ :=
        hstate.reaches.exists_open hsized.pieces_pos hqueue hfits
      have hmem : core ∈ (spa2Problem table).normal := by
        refine (mem_normal_or_reserve table core).resolve_right ?_
        rw [hreserve]
        exact List.not_mem_nil
      exact absurd (hfull core hmem) (not_le.mpr hopen)
  | exhausted hnormal hfull hhead hcore _ _ =>
      have hopen := hcan.reserve_open hsized hstate hqueue hnormal hfull hhead
      exact absurd hcore (not_le.mpr hopen)
  | noSlot hcons htarget hover hslot =>
      have hbodies := hstate.represents.bodies_length
      have hleft := hstate.reaches.slot_left hfits hcons htarget.open_core hover
      have hcores := cfg.cores_pos
      rw [Fintype.card_fin] at hleft
      rw [hslot, Config.maxNumTasks] at hbodies
      omega
  | places _ _ _ => exact ⟨_, rfl⟩

end Proceeds

/-- Under the condition the run ends by its guard. -/
theorem CanFinish.spa2_done (hcan : CanFinish table) (hsized : Sized table)
    (htotal : totalLoad table ≤ cfg.numberOfCores * cfg.utilizationBound)
    (creates : ℕ → Option TaskHandle) :
    ∃ final, spa2 creates table = .done final := by
  obtain ⟨ready, start, hsetup, hpre, _, hrun⟩ := spa2_eq_run creates table
  rw [hrun]
  apply While.run_done_of_proceeds
  · intro state hhead hguard
    obtain ⟨plan, hstate⟩ := spa2Head_state ⟨ready, start, hsetup, hpre, hhead⟩
    exact hcan.proceeds hsized htotal hstate hguard
  · rw [← hrun]
    exact spa2_ne_outOfFuel creates table

theorem CanFinish.complete (hcan : CanFinish table) (hsized : Sized table)
    (htotal : totalLoad table ≤ cfg.numberOfCores * cfg.utilizationBound)
    (creates : ℕ → Option TaskHandle) : Complete creates table := by
  obtain ⟨final, hrun⟩ := hcan.spa2_done hsized htotal creates
  obtain ⟨hhead, hempty⟩ := spa2Head_of_done hrun
  obtain ⟨plan, hstate⟩ := spa2Head_state hhead
  have hrep := hstate.represents
  rw [Stack.isEmpty_eq_true_iff] at hempty
  refine ⟨⟨final, hrun, hempty, ?_, ?_, ?_⟩, ?_⟩
  · intro task htask
    have hcount := hrep.count_pieces task
    have hused : task.val < final.memory.currIdx := by
      rcases htask with hdeclared | htail
      · exact hdeclared.trans_le hrep.currIdx_ge
      · have htails := hrep.count_tails task
        have hone := List.count_pos_iff.mpr htail
        by_contra hunused
        rw [if_neg fun hboth => hunused hboth.2] at htails
        omega
    rwa [hempty, List.nil_append, if_pos hused] at hcount
  · have htails := congrArg List.length hrep.tails
    rw [List.length_map, List.length_reverse, List.length_range'] at htails
    have hle := hrep.currIdx_le
    rw [Config.maxNumTasks] at hle
    omega
  · intro message hmessage hprinted
    obtain ⟨number, rfl⟩ := hrep.printed message hprinted
    simp at hmessage
  · intro state hhead' hwaiting
    obtain ⟨plan', hstate'⟩ := spa2Head_state hhead'
    have hqueue : plan'.queue ≠ [] := by
      rw [hstate'.represents.guard_eq] at hwaiting
      simpa using hwaiting
    have hnormal := hcan.normal_nonempty hstate' hqueue
    intro hnone
    rw [Spa2State.normal_eq, ← hstate'.free, hnone, List.toFinset_nil] at hnormal
    exact hnormal rfl

/-- A complete run shows that the capacity was there. -/
theorem Complete.canFinish (hcomplete : Complete creates table)
    (hsized : Sized table) : CanFinish table := by
  obtain ⟨⟨final, hrun, hempty, _⟩, hcores⟩ := hcomplete
  constructor
  · intro hcount
    obtain ⟨ready, start, hsetup, hpre, hstart⟩ := preAssign_spec creates table
    have hfree := free_length table cfg.numOfTask
    rw [hcount] at hfree
    have hnone : start.coreManager.list.entries = [] := by
      rw [hstart.free]
      exact List.length_eq_zero_iff.mp (by omega)
    have hidle : start.uq.isEmpty = true := by
      by_contra hbusy
      exact hcores start ⟨ready, start, hsetup, hpre, .start⟩
        (by simpa using hbusy) hnone
    rw [Stack.isEmpty_eq_true_iff] at hidle
    have hwaiting := congrArg List.length hstart.uq
    rw [hidle, List.map_nil, List.length_nil, List.length_map] at hwaiting
    have hall := given_add_waiting table
    omega
  · intro hcount hless
    obtain ⟨plan, hstate⟩ := spa2Head_state (spa2Head_of_done hrun).1
    cases hgiven : (prepare table cfg.numOfTask).given with
    | nil =>
        rw [← given_length, hgiven] at hcount
        exact absurd hcount (lt_irrefl 0)
    | cons x rest =>
        have hx : x ∈ (spa2Problem table).given := by
          change x ∈ (prepare table cfg.numOfTask).given
          rw [hgiven]
          exact List.mem_cons_self ..
        have hhead : (spa2Problem table).reserve.head? = some x.core := by
          change ((prepare table cfg.numOfTask).given.map _).head? = _
          rw [hgiven]
          rfl
        have hgivenLe : ∀ y ∈ (spa2Problem table).given,
            y.piece.load ≤ (spa2Problem table).bound := by
          intro y hy
          rw [(mem_given y hy).2.1]
          exact hsized.load_le_bound _
        have hle := hstate.reaches.load_le_bound hgivenLe
        have hnormal : ∑ core ∈ (spa2Problem table).normal,
            (spa2Problem table).load plan core ≤
              (spa2Problem table).normal.card * cfg.utilizationBound := by
          rw [← nsmul_eq_mul]
          exact Finset.sum_le_card_nsmul _ _ _ fun core _ => hle core
        have hused := hstate.reaches.sum_used hx hhead
        have htask := hstate.reaches.taskLoad_eq fun _ => True
        have hqueue : plan.queue = [] := by
          have hentries := hstate.represents.queue
          rw [hempty, List.map_nil, eq_comm, List.map_eq_nil_iff] at hentries
          exact hentries
        have hwaiting := taskLoad_waiting table cfg.numOfTask
        change taskLoad _ (spa2Problem table).pieces = _ at hwaiting
        rw [hqueue, taskLoad_nil, add_zero, hwaiting] at htask
        have hcard := card_free table
        have hcore : (spa2Problem table).load plan x.core ≤
          cfg.utilizationBound := hle x.core
        rw [← lastLoad_eq hgiven, ← hcard, ← Spa2State.normal_eq]
        linarith

/-- The SPA2 branch places every piece of a feasible task set exactly when the
pre-assign loop leaves it the capacity to. -/
theorem spa2_complete_iff (creates : ℕ → Option TaskHandle)
    (table : TaskTable cfg) (hsized : Sized table)
    (htotal : totalLoad table ≤ cfg.numberOfCores * cfg.utilizationBound) :
    Complete creates table ↔ CanFinish table :=
  ⟨fun hcomplete => hcomplete.canFinish hsized,
    fun hcan => hcan.complete hsized htotal creates⟩

/-- The task list of the repository is allocated completely. -/
theorem mainTable_complete : Complete some mainTable ∧ CanFinish mainTable := by
  have hsized : Sized mainTable := by
    constructor <;> decide +kernel
  have htotal : totalLoad mainTable ≤
      mainConfig.numberOfCores * mainConfig.utilizationBound := by
    decide +kernel
  have hcan : CanFinish mainTable := by
    decide +kernel
  exact ⟨(spa2_complete_iff some mainTable hsized htotal).mpr hcan, hcan⟩

/-- Three tasks on two cores, the first and the last of them heavy. -/
def crowdedConfig : Config := .checked 3 2 (3 / 4) (by norm_num)

def crowdedTable : TaskTable crowdedConfig :=
  TaskTable.ofRows crowdedConfig ![.mk 1 2 3, .mk 1 5 2, .mk 5 10 1]

/-- Both cores are given away before the light task is placed. -/
theorem crowdedTable_not_complete :
    Sized crowdedTable ∧
      totalLoad crowdedTable ≤
        crowdedConfig.numberOfCores * crowdedConfig.utilizationBound ∧
      ¬Complete some crowdedTable := by
  refine ⟨by constructor <;> decide +kernel, by decide +kernel, ?_⟩
  rintro ⟨⟨final, hrun, _⟩, _⟩
  have hnone : (spa2 some crowdedTable).final.isNone = true := by
    decide +kernel
  rw [hrun] at hnone
  cases hnone

end PicoSched.Refinement
