import PicoSched.Allocation.Completeness
import PicoSched.Allocation.ExactFill

/-!
# When an overload is reported

A task list with more load than the cores can take makes both loops run until
no core is open.  The `#else` loop gets there when some core is filled without
a split; the SPA2 loop also needs a reserve core, and reports every core full
only when the other reserve cores are.
-/

namespace PicoSched.Refinement

open Filling Loop TaskManager Main PreAssign

variable {cfg : Config} {creates : ℕ → Option TaskHandle}
  {table : TaskTable cfg}

/-- A loop that is left by its `break`, with the message and with every core
full.  No fault comes before it, so no NULL has been dereferenced. -/
def Reports (outcome : Outcome (State cfg) Fault) : Prop :=
  ∃ final, outcome = .left final ∧
    .allProcessorsFullyUtilized ∈ final.memory.printed ∧
    ∀ core, cfg.utilizationBound ≤ (final.memory.coreList core).utilization

/-- The pre-assign loop leaves a core and uses one, all the cores it uses but
the last are full, and if there is no other one, a core is filled exactly. -/
def Spa2Exits (table : TaskTable cfg) : Prop :=
  0 < preCount table cfg.numOfTask ∧
  preCount table cfg.numOfTask < cfg.numberOfCores ∧
  (∀ task later, task < later → later < cfg.numOfTask →
    PreAssigned table task → PreAssigned table later →
      load table task = cfg.utilizationBound) ∧
  (preCount table cfg.numOfTask = 1 →
    lastLoad table cfg.numOfTask = cfg.utilizationBound ∨
      ClosesExactly cfg.utilizationBound (waitingLoads table cfg.numOfTask)
        (Multiset.replicate (cfg.numberOfCores - 1) 0)
        (some (lastLoad table cfg.numOfTask)))

/-- The `#else` loop fills some core exactly. -/
def ElseExits (table : TaskTable cfg) : Prop :=
  ClosesExactly cfg.utilizationBound
    ((List.range cfg.numOfTask).reverse.map (load table))
    (Multiset.replicate cfg.numberOfCores 0) none

/-! ## The start of the two problems -/

/-- Untouched ordinary cores are open and empty. -/
theorem openLoads_start (P : Problem (CorePtr cfg)) :
    P.openLoads ⟨[], P.pieces⟩ = Multiset.replicate P.normal.card 0 := by
  have hload : ∀ core ∈ P.normal, P.load ⟨[], P.pieces⟩ core = 0 := by
    intro core hcore
    rw [Problem.load_of_mem_normal _ hcore, coreLoad_nil]
  rw [Problem.openLoads, Finset.filter_true_of_mem]
  · rw [Multiset.map_congr rfl hload, Multiset.map_const']
    rfl
  · intro core hcore
    rw [hload core hcore]
    exact P.bound_pos

theorem not_filledWhole_of_normal {P : Problem (CorePtr cfg)}
    {core : CorePtr cfg} (hcore : core ∈ P.normal) :
    ¬P.bound ≤ P.load ⟨[], P.pieces⟩ core := by
  rw [Problem.load_of_mem_normal _ hcore, coreLoad_nil, not_le]
  exact P.bound_pos

theorem else_closes_iff (table : TaskTable cfg) :
    (elseProblem table).Closes ⟨[], (elseProblem table).pieces⟩ ↔
      ElseExits table := by
  have hwhole : ¬(elseProblem table).FilledWhole
      ⟨[], (elseProblem table).pieces⟩ := by
    rintro ⟨core, _, hfull, _⟩
    exact not_filledWhole_of_normal (Finset.mem_univ core) hfull
  have hloads : (elseProblem table).pieces.map Piece.load =
      (List.range cfg.numOfTask).reverse.map (load table) := by
    rw [elseProblem, List.map_map]
    rfl
  have hcard : (elseProblem table).normal.card = cfg.numberOfCores :=
    Finset.card_fin _
  rw [Problem.Closes, or_iff_right hwhole, openLoads_start, hloads, hcard]
  rfl

/-- With one core given beforehand, its load decides how the spare bin
starts. -/
theorem spa2_closes_iff (hsized : Sized table)
    (hone : preCount table cfg.numOfTask = 1) :
    (spa2Problem table).Closes ⟨[], (spa2Problem table).pieces⟩ ↔
      lastLoad table cfg.numOfTask = cfg.utilizationBound ∨
        ClosesExactly cfg.utilizationBound (waitingLoads table cfg.numOfTask)
          (Multiset.replicate (cfg.numberOfCores - 1) 0)
          (some (lastLoad table cfg.numOfTask)) := by
  have hlength := given_length table cfg.numOfTask
  rw [hone] at hlength
  obtain ⟨x, hgiven⟩ := List.length_eq_one_iff.mp hlength
  have hx : x ∈ (spa2Problem table).given := by
    change x ∈ (prepare table cfg.numOfTask).given
    rw [hgiven]
    exact List.mem_cons_self ..
  have hhead : (spa2Problem table).reserve.head? = some x.core := by
    change ((prepare table cfg.numOfTask).given.map _).head? = _
    rw [hgiven]
    rfl
  have hload : (spa2Problem table).load ⟨[], (spa2Problem table).pieces⟩ x.core =
      lastLoad table cfg.numOfTask := by
    rw [Problem.load, Problem.coreLoad_given hx, coreLoad_nil, add_zero]
    exact lastLoad_eq hgiven
  have hcard : (spa2Problem table).normal.card = cfg.numberOfCores - 1 := by
    have hfree := free_length table cfg.numOfTask
    rw [Spa2State.normal_eq, List.toFinset_card_of_nodup
      (List.nodup_reverse.mp (nodup_cores table).1)]
    omega
  have hloads : (spa2Problem table).pieces.map Piece.load =
      waitingLoads table cfg.numOfTask := map_load_waiting table _
  have hle : lastLoad table cfg.numOfTask ≤ cfg.utilizationBound := by
    rw [← lastLoad_eq hgiven, (mem_given x hx).2.1]
    exact hsized.load_le_bound _
  rw [Problem.Closes, openLoads_start, hloads, hcard, Problem.spareLoad, hhead]
  rcases hle.lt_or_eq with hless | hfull
  · have hwhole : ¬(spa2Problem table).FilledWhole
        ⟨[], (spa2Problem table).pieces⟩ := by
      rintro ⟨core, hcore, hbound, _⟩
      rcases hcore with hnormal | hcore
      · exact not_filledWhole_of_normal hnormal hbound
      · obtain rfl : x.core = core := Option.some.inj (hhead.symm.trans hcore)
        rw [hload] at hbound
        exact hless.not_ge hbound
    rw [or_iff_right hwhole, or_iff_right hless.ne, Option.filter_some_pos,
      Option.map_some, hload]
    · rfl
    · rw [hload]
      exact decide_eq_true hless
  · refine iff_of_true (.inl ⟨x.core, .inr hhead, ?_, by simp⟩) (.inl hfull)
    rw [hload]
    exact hfull.ge

/-! ## The `#else` loop -/

theorem else_total (table : TaskTable cfg) :
    (elseProblem table).total = totalLoad table := by
  have hpieces : taskLoad (fun _ => True) (elseProblem table).pieces =
      ((List.range cfg.numOfTask).reverse.map (load table)).sum := by
    rw [elseProblem, taskLoad, List.map_map]
    simp only [if_true]
    rfl
  have hsum : ((List.range cfg.numOfTask).reverse.map (load table)).sum =
      ∑ index ∈ Finset.range cfg.numOfTask, load table index := by
    rw [List.map_reverse, List.sum_reverse]
    rfl
  rw [Problem.total, hpieces, hsum, sum_table]
  exact zero_add _

/-- More load than the cores can take leaves pieces waiting. -/
theorem queue_ne_nil_of_total {P : Problem (CorePtr cfg)}
    {plan : Plan (CorePtr cfg)} (hreach : P.Reaches plan)
    (hgiven : ∀ x ∈ P.given, x.piece.load ≤ P.bound)
    (htotal : cfg.numberOfCores * P.bound < P.total) : plan.queue ≠ [] := by
  intro hqueue
  have hsum := hreach.sum_load
  rw [hqueue, taskLoad_nil, add_zero] at hsum
  have hall : ∑ core, P.load plan core ≤ cfg.numberOfCores * P.bound := by
    calc
      ∑ core, P.load plan core ≤ ∑ _core : CorePtr cfg, P.bound :=
        Finset.sum_le_sum fun core _ => hreach.load_le_bound hgiven core
      _ = cfg.numberOfCores * P.bound := by simp
  rw [Problem.total] at htotal
  linarith

/-- There are fewer bodies than cores. -/
theorem Represents.bodies_lt {P : Problem (CorePtr cfg)}
    {stack : TaskStack cfg} {memory : Memory cfg} {plan : Plan (CorePtr cfg)}
    (hrep : Represents creates table P stack memory plan) :
    (plan.placed.filter Placement.body).length <
      Fintype.card (CorePtr cfg) := by
  have hbodies := hrep.bodies_length
  have hle := hrep.currIdx_le
  have hcores := cfg.cores_pos
  rw [Config.maxNumTasks] at hle
  rw [Fintype.card_fin]
  omega

theorem Represents.bodies_of_no_slot {P : Problem (CorePtr cfg)}
    {stack : TaskStack cfg} {memory : Memory cfg} {plan : Plan (CorePtr cfg)}
    (hrep : Represents creates table P stack memory plan)
    (hslot : memory.currIdx = cfg.maxNumTasks) :
    Fintype.card (CorePtr cfg) ≤
      (plan.placed.filter Placement.body).length + 1 := by
  have hbodies := hrep.bodies_length
  rw [hslot, Config.maxNumTasks] at hbodies
  rw [Fintype.card_fin]
  omega

/-- The `#else` loop reports an overload exactly when it fills some core
without a split. -/
theorem elseReports_iff
    (hover : cfg.numberOfCores * cfg.utilizationBound < totalLoad table) :
    Reports (elseBranch creates table) ↔ ElseExits table := by
  obtain ⟨ready, _, hready, hrun⟩ := elseBranch_eq_run creates table
  have hgiven : ∀ x ∈ (elseProblem table).given,
      x.piece.load ≤ (elseProblem table).bound := by simp [elseProblem]
  rw [← else_closes_iff]
  constructor
  · rintro ⟨final, hleft, _, _⟩
    obtain ⟨state, plan, hstate, hiteration⟩ := elseBranch_left_iteration hleft
    cases hiteration with
    | exhausted hfull _ _ =>
        rw [hstate.reaches.closes_iff]
        exact hstate.reaches.closes_of_full
          (fun core => .inl (Finset.mem_univ core)) hfull
          hstate.represents.bodies_lt
  · intro hcloses
    cases hresult : elseBranch creates table with
    | done final =>
        rw [hrun] at hresult
        obtain ⟨hhead, hguard⟩ := While.run_eq_done hresult
        obtain ⟨plan, hstate⟩ := elseHead_state hready hhead
        have hqueue := queue_ne_nil_of_total hstate.reaches hgiven
          (by rw [else_total]; exact hover)
        simp [elseAssign, hstate.represents.guard_eq, hqueue] at hguard
    | left final =>
        obtain ⟨state, plan, hstate, hiteration⟩ :=
          elseBranch_left_iteration hresult
        cases hiteration with
        | exhausted hfull hmemory _ =>
            refine ⟨final, rfl, by simp [hmemory], fun core => ?_⟩
            rw [hmemory, Memory.coreList_log, hstate.utilization]
            exact hfull core
    | fault error =>
        obtain ⟨state, plan, hstate, hiteration⟩ :=
          elseBranch_fault_iteration hresult
        cases hiteration with
        | noSlot hqueue htarget hover' hslot =>
            rw [hstate.reaches.closes_iff] at hcloses
            exact absurd hcloses (hstate.reaches.not_closes_of_no_slot hqueue
              htarget hover' (hstate.represents.bodies_of_no_slot hslot))
    | outOfFuel => exact absurd hresult (elseBranch_ne_outOfFuel creates table)

/-! ## The SPA2 loop -/

section Spa2

variable {state : State cfg} {plan : Plan (CorePtr cfg)}

theorem spa2_given_eq : (spa2Problem table).given =
    (prepare table cfg.numOfTask).given := rfl

theorem given_le (hsized : Sized table) : ∀ x ∈ (spa2Problem table).given,
    x.piece.load ≤ (spa2Problem table).bound := by
  intro x hx
  rw [(mem_given x hx).2.1]
  exact hsized.load_le_bound _

/-- On a reserve core other than the first nothing is placed. -/
theorem Spa2State.load_of_not_head
    (hstate : Spa2State creates table state plan)
    {x : Placement (CorePtr cfg)} (hx : x ∈ (spa2Problem table).given)
    (hhead : (spa2Problem table).reserve.head? ≠ some x.core) :
    (spa2Problem table).load plan x.core = load table x.piece.task := by
  have hnone : coreLoad plan.placed x.core = 0 := by
    apply List.sum_eq_zero
    intro load hload
    obtain ⟨y, hy, rfl⟩ := List.mem_map.mp hload
    have hne : y.core ≠ x.core := by
      intro heq
      rcases hstate.reaches.core_mem y hy with hnormal | ⟨hcore, _⟩
      · exact (spa2Problem table).apart x.core
          ((spa2Problem table).given_reserve x hx) (heq ▸ hnormal)
      · exact hhead (heq ▸ hcore)
    exact if_neg hne
  have hpiece := (mem_given x hx).2.1
  rw [Problem.load, Problem.coreLoad_given hx, hnone, add_zero, hpiece]
  rfl

/-- The task on the first reserve core is the last one given. -/
theorem head_of_given {x y : Placement (CorePtr cfg)}
    (hx : x ∈ (spa2Problem table).given) (hy : y ∈ (spa2Problem table).given)
    (hhead : (spa2Problem table).reserve.head? = some x.core) :
    y.piece.task ≤ x.piece.task := by
  obtain ⟨rest, hgiven⟩ := given_head hx hhead
  have hdescending := given_descending table cfg.numOfTask
  rw [spa2_given_eq, hgiven] at hy
  rw [hgiven, List.pairwise_cons] at hdescending
  rcases List.mem_cons.mp hy with rfl | hy
  · exact le_rfl
  · exact (hdescending.1 y hy).le

/-- A reserve core that is not the first one was given to an earlier task. -/
theorem exists_later {x : Placement (CorePtr cfg)}
    (hx : x ∈ (spa2Problem table).given)
    (hhead : (spa2Problem table).reserve.head? ≠ some x.core) :
    ∃ later, x.piece.task < later ∧ later < cfg.numOfTask ∧
      PreAssigned table later := by
  have hdescending := given_descending table cfg.numOfTask
  rw [spa2_given_eq] at hx
  cases hgiven : (prepare table cfg.numOfTask).given with
  | nil =>
      rw [hgiven] at hx
      exact absurd hx List.not_mem_nil
  | cons y rest =>
      have hy := mem_given y (by rw [hgiven]; exact List.mem_cons_self ..)
      have hfirst : (spa2Problem table).reserve.head? = some y.core := by
        change ((prepare table cfg.numOfTask).given.map _).head? = _
        rw [hgiven]
        rfl
      rw [hgiven] at hx hdescending
      rw [List.pairwise_cons] at hdescending
      rcases List.mem_cons.mp hx with rfl | hrest
      · exact absurd hfirst hhead
      · exact ⟨y.piece.task, hdescending.1 x hrest, hy.2.2.1, hy.2.2.2⟩

theorem usable_of_one (hone : preCount table cfg.numOfTask = 1)
    (core : CorePtr cfg) : core ∈ (spa2Problem table).normal ∨
      (spa2Problem table).reserve.head? = some core := by
  have hlength := given_length table cfg.numOfTask
  rw [hone] at hlength
  obtain ⟨x, hgiven⟩ := List.length_eq_one_iff.mp hlength
  have hreserve : (spa2Problem table).reserve = [x.core] := by
    change (prepare table cfg.numOfTask).given.map Placement.core = _
    rw [hgiven]
    rfl
  refine (mem_normal_or_reserve table core).imp_right fun hmem => ?_
  rw [hreserve, List.mem_singleton] at hmem
  rw [hreserve, hmem]
  rfl

theorem preCount_pos_of_head {core : CorePtr cfg}
    (hhead : (spa2Problem table).reserve.head? = some core) :
    0 < preCount table cfg.numOfTask := by
  rw [← given_length]
  have hne : (prepare table cfg.numOfTask).given ≠ [] := by
    intro hnone
    change ((prepare table cfg.numOfTask).given.map _).head? = _ at hhead
    rw [hnone] at hhead
    cases hhead
  exact List.length_pos_iff.mpr hne

theorem preCount_lt_of_normal (hnormal : (spa2Problem table).normal.Nonempty) :
    preCount table cfg.numOfTask < cfg.numberOfCores := by
  have hfree := free_length table cfg.numOfTask
  obtain ⟨core, hcore⟩ := hnormal
  rw [Spa2State.normal_eq, List.mem_toFinset] at hcore
  have hpositive := List.length_pos_of_mem hcore
  omega

/-- The state in which the SPA2 loop breaks off is the one the condition
describes. -/
theorem Spa2State.exits (hstate : Spa2State creates table state plan)
    (hsized : Sized table) (hnormal : (spa2Problem table).normal.Nonempty)
    {core : CorePtr cfg}
    (hhead : (spa2Problem table).reserve.head? = some core)
    (hfull : ∀ core, cfg.utilizationBound ≤ (spa2Problem table).load plan core) :
    Spa2Exits table := by
  refine ⟨preCount_pos_of_head hhead, preCount_lt_of_normal hnormal, ?_, ?_⟩
  · intro task later hless hlater hpre hpre'
    obtain ⟨x, hx, rfl⟩ := exists_given hpre (hless.trans hlater)
    obtain ⟨y, hy, rfl⟩ := exists_given hpre' hlater
    have hnot : (spa2Problem table).reserve.head? ≠ some x.core := fun hfirst =>
      hless.not_ge (head_of_given hx hy hfirst)
    refine le_antisymm (hsized.load_le_bound _) ?_
    rw [← hstate.load_of_not_head hx hnot]
    exact hfull x.core
  · intro hone
    rw [← spa2_closes_iff hsized hone, hstate.reaches.closes_iff]
    exact hstate.reaches.closes_of_full (usable_of_one hone) hfull
      hstate.represents.bodies_lt

/-- Under the condition the slots do not run out before the cores are full. -/
theorem Spa2Exits.slot_left (hexits : Spa2Exits table) (hsized : Sized table)
    (hstate : Spa2State creates table state plan) {piece : Piece}
    {pieces : List Piece} (hqueue : plan.queue = piece :: pieces)
    {core : CorePtr cfg} (htarget : (spa2Problem table).Target plan core)
    (hover : cfg.utilizationBound <
      (spa2Problem table).load plan core + piece.load) :
    state.memory.currIdx ≠ cfg.maxNumTasks := by
  intro hslot
  obtain ⟨hpos, _, _, hone⟩ := hexits
  have hcount := hstate.represents.bodies_of_no_slot hslot
  rcases Nat.lt_or_ge (preCount table cfg.numOfTask) 2 with hless | htwo
  · have hcloses := hone (by omega)
    rw [← spa2_closes_iff hsized (by omega),
      hstate.reaches.closes_iff] at hcloses
    exact hstate.reaches.not_closes_of_no_slot hqueue htarget hover hcount
      hcloses
  · -- the second reserve core never hosts a body
    rw [← given_length] at htwo
    have hnodup := (nodup_cores table).2.1
    cases hgiven : (prepare table cfg.numOfTask).given with
    | nil => simp [hgiven] at htwo
    | cons x rest =>
        cases rest with
        | nil => simp [hgiven] at htwo
        | cons y rest =>
            have hy : y ∈ (spa2Problem table).given := by
              rw [spa2_given_eq, hgiven]
              simp
            have hfirst : (spa2Problem table).reserve.head? = some x.core := by
              change ((prepare table cfg.numOfTask).given.map _).head? = _
              rw [hgiven]
              rfl
            have hne : x.core ≠ y.core := by
              rw [hgiven] at hnodup
              simp only [List.map_cons, List.nodup_cons, List.mem_cons,
                not_or] at hnodup
              exact hnodup.1.1
            have hunusable : ¬(y.core ∈ (spa2Problem table).normal ∨
                (spa2Problem table).reserve.head? = some y.core) := by
              rintro (hnormal | hhead)
              · exact (spa2Problem table).apart y.core
                  ((spa2Problem table).given_reserve y hy) hnormal
              · exact hne (Option.some.inj (hfirst.symm.trans hhead))
            have hother : y.core ≠ core := fun heq =>
              hunusable (heq ▸ htarget.mem_or_head)
            obtain ⟨z, hz, hzcore, _⟩ := hstate.reaches.hosts_of_bodies
              htarget.open_core hcount y.core hother
            exact hunusable (hzcore ▸
              (hstate.reaches.core_mem z hz).imp_right And.left)

/-- When the loop breaks off under the condition, every core is full. -/
theorem Spa2Exits.full (hexits : Spa2Exits table)
    (hstate : Spa2State creates table state plan)
    (hnormal : ∀ core ∈ (spa2Problem table).normal,
      cfg.utilizationBound ≤ (spa2Problem table).load plan core)
    {first : CorePtr cfg}
    (hhead : (spa2Problem table).reserve.head? = some first)
    (hfirst : cfg.utilizationBound ≤ (spa2Problem table).load plan first)
    (core : CorePtr cfg) :
    cfg.utilizationBound ≤ (spa2Problem table).load plan core := by
  rcases mem_normal_or_reserve table core with hmem | hmem
  · exact hnormal core hmem
  · obtain ⟨x, hx, rfl⟩ := (spa2Problem table).reserve_given core hmem
    by_cases hsame : (spa2Problem table).reserve.head? = some x.core
    · rw [hhead, Option.some.injEq] at hsame
      exact hsame ▸ hfirst
    · obtain ⟨later, hless, hlater, hpre⟩ := exists_later hx hsame
      rw [hstate.load_of_not_head hx hsame]
      exact (hexits.2.2.1 _ later hless hlater (mem_given x hx).2.2.2 hpre).ge

end Spa2

/-- The SPA2 loop reports an overload exactly under its condition. -/
theorem spa2Reports_iff (hsized : Sized table)
    (hover : cfg.numberOfCores * cfg.utilizationBound < totalLoad table) :
    Reports (spa2 creates table) ↔ Spa2Exits table := by
  constructor
  · rintro ⟨final, hleft, _, hloads⟩
    obtain ⟨state, plan, hstate, hiteration⟩ :=
      spa2Exit_iteration (spa2Exit_of_left hleft)
    cases hiteration with
    | exhausted hnormal hfull hfirst hcore hmemory _ =>
        refine hstate.exits hsized hnormal hfirst fun core => ?_
        rw [← hstate.utilization]
        simpa [hmemory] using hloads core
  · intro hexits
    cases hresult : spa2 creates table with
    | done final =>
        obtain ⟨hhead, hempty⟩ := spa2Head_of_done hresult
        obtain ⟨plan, hstate⟩ := spa2Head_state hhead
        have hqueue := queue_ne_nil_of_total hstate.reaches (given_le hsized)
          (by rw [spa2_total]; exact hover)
        simp [hstate.represents.guard_eq, hqueue] at hempty
    | left final =>
        obtain ⟨state, plan, hstate, hiteration⟩ :=
          spa2Exit_iteration (spa2Exit_of_left hresult)
        cases hiteration with
        | exhausted hnormal hfull hfirst hcore hmemory _ =>
            refine ⟨final, rfl, by simp [hmemory], fun core => ?_⟩
            rw [hmemory, Memory.coreList_log, hstate.utilization]
            exact hexits.full hstate hfull hfirst hcore core
    | fault error =>
        obtain ⟨state, plan, hstate, hiteration⟩ := spa2_fault_iteration hresult
        cases hiteration with
        | noCore hnormal =>
            have hcard := card_free table
            rw [← Spa2State.normal_eq, hnormal, Finset.card_empty,
              Nat.cast_zero] at hcard
            have hless : (preCount table cfg.numOfTask : ℚ) <
                cfg.numberOfCores := Nat.cast_lt.mpr hexits.2.1
            linarith
        | noReserve _ _ hreserve =>
            have hlength := given_length table cfg.numOfTask
            have hnone := congrArg List.length hreserve
            change ((prepare table cfg.numOfTask).given.map _).length = 0
              at hnone
            rw [List.length_map, hlength] at hnone
            exact absurd hnone hexits.1.ne'
        | noSlot hqueue htarget hover' hslot =>
            exact absurd hslot
              (hexits.slot_left hsized hstate hqueue htarget hover')
    | outOfFuel => exact absurd hresult (spa2_ne_outOfFuel creates table)

/-- Both loops report an overload exactly under their conditions. -/
theorem overload_reported_iff (creates : ℕ → Option TaskHandle)
    (table : TaskTable cfg) (hsized : Sized table)
    (hover : cfg.numberOfCores * cfg.utilizationBound < totalLoad table) :
    (Reports (spa2 creates table) ↔ Spa2Exits table) ∧
      (Reports (elseBranch creates table) ↔ ElseExits table) :=
  ⟨spa2Reports_iff hsized hover, elseReports_iff hover⟩

/-- A heavy task that fills a core of its own between two light ones. -/
def filledTable : TaskTable crowdedConfig :=
  TaskTable.ofRows crowdedConfig ![.mk 2 5 3, .mk 3 4 2, .mk 2 5 1]

/-- Here both loops report the overload. -/
theorem filledTable_reports :
    Reports (spa2 some filledTable) ∧ Reports (elseBranch some filledTable) := by
  have hsized : Sized filledTable := by
    constructor <;> decide +kernel
  have hover : crowdedConfig.numberOfCores * crowdedConfig.utilizationBound <
      totalLoad filledTable := by
    decide +kernel
  have hspa2 : Spa2Exits filledTable := by
    refine ⟨by decide +kernel, by decide +kernel, ?_,
      fun _ => .inl (by decide +kernel)⟩
    intro task later hless hlater hpre _
    have hnone : ∀ later < 3, ∀ task < later,
        PreAssigned filledTable task → task = 1 ∧ later = 2 := by
      decide +kernel
    obtain ⟨rfl, rfl⟩ := hnone later hlater task hless hpre
    decide +kernel
  have helse : ElseExits filledTable := by
    have hloads : (List.range crowdedConfig.numOfTask).reverse.map
        (load filledTable) = [2 / 5, 3 / 4, 2 / 5] := by
      decide +kernel
    have hbins : Multiset.replicate crowdedConfig.numberOfCores (0 : ℚ) =
        0 ::ₘ {0} := rfl
    rw [ElseExits, hloads, hbins]
    -- the first piece opens one core, the second fills the other
    refine .fits (by simp) (by decide +kernel) ?_
    rw [show ((0 + 2 / 5 : ℚ) ::ₘ {0}) = 0 ::ₘ {0 + 2 / 5} from
      Multiset.cons_swap _ _ 0]
    exact .fills (by norm_num) (by decide +kernel)
  have hboth := overload_reported_iff some filledTable hsized hover
  exact ⟨hboth.1.mpr hspa2, hboth.2.mpr helse⟩

/-- Four light tasks on two cores. -/
def overloadedConfig : Config := .checked 4 2 (3 / 4) (by norm_num)

def overloadedTable : TaskTable overloadedConfig :=
  TaskTable.ofRows overloadedConfig
    ![.mk 2 5 4, .mk 2 5 3, .mk 2 5 2, .mk 2 5 1]

/-- Both loops need a second extra slot here and dereference NULL. -/
theorem overloadedTable_not_reports :
    Sized overloadedTable ∧
      overloadedConfig.numberOfCores * overloadedConfig.utilizationBound <
        totalLoad overloadedTable ∧
      ¬Reports (spa2 some overloadedTable) ∧
      ¬Reports (elseBranch some overloadedTable) := by
  refine ⟨by constructor <;> decide +kernel, by decide +kernel, ?_, ?_⟩
  · rintro ⟨final, hleft, _⟩
    have hfault : (spa2 some overloadedTable).faults = some .nullTask := by
      decide +kernel
    rw [hleft] at hfault
    cases hfault
  · rintro ⟨final, hleft, _⟩
    have hfault : (elseBranch some overloadedTable).faults =
        some .nullTask := by
      decide +kernel
    rw [hleft] at hfault
    cases hfault

end PicoSched.Refinement
