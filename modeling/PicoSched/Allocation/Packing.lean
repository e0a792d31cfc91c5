import PicoSched.Allocation.Registration
import PicoSched.Allocation.Runs

/-!
# The packing the loop computes

The filling leaves open which of several least loaded cores is taken.  The
program scans its core stack from the top, so its run is a function of the task
list: the packing by exact utilizations.
-/

namespace PicoSched.Filling.Problem

open TaskManager

variable {κ : Type*} [DecidableEq κ] (P : Problem κ)

/-- The first least loaded core of a list. -/
def leastLoaded (plan : Plan κ) : List κ → Option κ
  | [] => none
  | first :: rest =>
      some (rest.foldl (fun least core =>
        if P.load plan core < P.load plan least then core else least) first)

/-- The least loaded free core, or the first reserve core once that is full. -/
def nextCore (free : List κ) (plan : Plan κ) : Option κ :=
  match P.leastLoaded plan free with
  | none => none
  | some least =>
      if P.load plan least < P.bound then some least
      else P.reserve.head?.filter fun core => P.load plan core < P.bound

/-- The next piece goes to `core`, as far as there is room. -/
def place (slot : ℕ) (core : κ) (plan : Plan κ) : Plan κ :=
  match plan.queue with
  | [] => plan
  | piece :: rest =>
      let room := P.bound - P.load plan core
      if piece.load ≤ room then
        ⟨⟨piece, core, false⟩ :: plan.placed, rest⟩
      else
        ⟨⟨{ piece with load := room }, core, true⟩ :: plan.placed,
          ⟨slot, piece.task, piece.load - room⟩ :: rest⟩

/-- The packing by exact loads.  The tails take the slots after `slots`. -/
def pack (free : List κ) (slots : ℕ) : ℕ → Plan κ → Plan κ
  | 0, plan => plan
  | fuel + 1, plan =>
      match P.nextCore free plan with
      | none => plan
      | some core =>
          pack free slots fuel (P.place
            (slots + (plan.placed.filter Placement.body).length) core plan)

/-- The packing as far as there are slots: it stops at a piece whose tail would
be one too many. -/
def packWithin (free : List κ) (slots limit : ℕ) : ℕ → Plan κ → Plan κ
  | 0, plan => plan
  | fuel + 1, plan =>
      match P.nextCore free plan with
      | none => plan
      | some core =>
          let next := P.place
            (slots + (plan.placed.filter Placement.body).length) core plan
          if slots + (next.placed.filter Placement.body).length ≤ limit then
            packWithin free slots limit fuel next
          else plan

variable {P}

theorem place_of_nil {plan : Plan κ} (hqueue : plan.queue = []) (slot : ℕ)
    (core : κ) : P.place slot core plan = plan := by
  rw [place, hqueue]

theorem pack_of_nil {plan : Plan κ} (hqueue : plan.queue = []) (free : List κ)
    (slots fuel : ℕ) : P.pack free slots fuel plan = plan := by
  induction fuel with
  | zero => rfl
  | succ fuel ih =>
      rw [pack]
      cases P.nextCore free plan with
      | none => rfl
      | some core =>
          dsimp only
          rw [place_of_nil hqueue, ih]

/-! ## The core that is next -/

theorem leastLoaded_of_ne_nil {free : List κ} (hne : free ≠ []) (plan : Plan κ) :
    ∃ least ∈ free, P.leastLoaded plan free = some least ∧
      ∀ other ∈ free, P.load plan least ≤ P.load plan other := by
  cases free with
  | nil => exact absurd rfl hne
  | cons first rest =>
      obtain ⟨hmem, hleast⟩ := scan_spec (P.load plan) rest first
      exact ⟨_, hmem, rfl, hleast⟩

theorem nextCore_of_nil (plan : Plan κ) : P.nextCore [] plan = none := rfl

/-- Without an open core there is no next one. -/
theorem nextCore_of_full {free : List κ} {plan : Plan κ}
    (hfull : ∀ core ∈ free, P.bound ≤ P.load plan core)
    (hreserve : ∀ core, P.reserve.head? = some core →
      P.bound ≤ P.load plan core) : P.nextCore free plan = none := by
  by_cases hnil : free = []
  · rw [hnil, nextCore_of_nil]
  · obtain ⟨least, hmem, hleast, _⟩ := leastLoaded_of_ne_nil hnil plan
    rw [nextCore, hleast]
    dsimp only
    rw [if_neg (not_lt.mpr (hfull least hmem)), Option.filter_eq_none_iff]
    intro core hhead
    simpa using hreserve core hhead

/-- The next core is one the filling allows. -/
theorem target_of_nextCore {free : List κ} {plan : Plan κ} {core : κ}
    (hnormal : ∀ other, other ∈ P.normal ↔ other ∈ free)
    (hnext : P.nextCore free plan = some core) : P.Target plan core := by
  by_cases hnil : free = []
  · rw [hnil, nextCore_of_nil] at hnext
    cases hnext
  · obtain ⟨least, hmem, hsome, hleast⟩ := leastLoaded_of_ne_nil hnil plan
    have hleast' : ∀ other ∈ P.normal, P.load plan least ≤ P.load plan other :=
      fun other hother => hleast other ((hnormal other).mp hother)
    rw [nextCore, hsome] at hnext
    dsimp only at hnext
    split at hnext
    · rename_i hopen
      obtain rfl := Option.some.inj hnext
      exact .normal ((hnormal least).mpr hmem) hopen hleast'
    · rename_i hfull
      rw [Option.filter_eq_some_iff] at hnext
      refine .reserve (fun other hother => ?_) hnext.1 (by simpa using hnext.2)
      exact (not_lt.mp hfull).trans (hleast' other hother)

/-- The cores the next piece may go to have the same load. -/
theorem Target.load_eq {plan : Plan κ} {core other : κ}
    (hcore : P.Target plan core) (hother : P.Target plan other) :
    P.load plan core = P.load plan other := by
  cases hcore with
  | normal hmem hopen hleast =>
      cases hother with
      | normal hmem' _ hleast' =>
          exact le_antisymm (hleast other hmem') (hleast' core hmem)
      | reserve hfull _ _ => exact absurd hopen (not_lt.mpr (hfull core hmem))
  | reserve hfull hhead _ =>
      cases hother with
      | normal hmem' hopen' _ =>
          exact absurd hopen' (not_lt.mpr (hfull other hmem'))
      | reserve _ hhead' _ => rw [Option.some.inj (hhead.symm.trans hhead')]

/-! ## The packing with a limit -/

theorem placed_place (slot : ℕ) (core : κ) (plan : Plan κ) :
    plan.placed <:+ (P.place slot core plan).placed := by
  rw [place]
  split
  · exact List.suffix_rfl
  · dsimp only
    split <;> exact List.suffix_cons ..

theorem packWithin_of_none {free : List κ} {plan : Plan κ}
    (hnone : P.nextCore free plan = none) (slots limit fuel : ℕ) :
    P.packWithin free slots limit fuel plan = plan := by
  cases fuel with
  | zero => rfl
  | succ fuel => rw [packWithin, hnone]

theorem packWithin_of_nil {plan : Plan κ} (hqueue : plan.queue = [])
    (free : List κ) (slots limit fuel : ℕ) :
    P.packWithin free slots limit fuel plan = plan := by
  induction fuel with
  | zero => rfl
  | succ fuel ih =>
      rw [packWithin]
      cases P.nextCore free plan with
      | none => rfl
      | some core =>
          dsimp only
          rw [place_of_nil hqueue, ih, ite_self]

/-- The packing keeps what has been placed. -/
theorem placed_packWithin (free : List κ) (slots limit fuel : ℕ)
    (plan : Plan κ) :
    plan.placed <:+ (P.packWithin free slots limit fuel plan).placed := by
  induction fuel generalizing plan with
  | zero => exact List.suffix_rfl
  | succ fuel ih =>
      rw [packWithin]
      cases P.nextCore free plan with
      | none => exact List.suffix_rfl
      | some core =>
          dsimp only
          split
          · exact (placed_place ..).trans (ih _)
          · exact List.suffix_rfl

/-- A tail without a slot ends the packing. -/
theorem packWithin_of_split {free : List κ} {slots limit : ℕ} {plan : Plan κ}
    {core : κ} {piece : Piece} {rest : List Piece}
    (hnext : P.nextCore free plan = some core)
    (hqueue : plan.queue = piece :: rest)
    (hover : P.bound < P.load plan core + piece.load)
    (hslots : slots + (plan.placed.filter Placement.body).length = limit)
    (fuel : ℕ) : P.packWithin free slots limit fuel plan = plan := by
  cases fuel with
  | zero => rfl
  | succ fuel =>
      rw [packWithin, hnext]
      dsimp only
      rw [if_neg]
      rw [place, hqueue]
      dsimp only
      rw [if_neg (not_le.mpr (sub_lt_iff_lt_add'.mpr hover)),
        List.filter_cons_of_pos rfl, List.length_cons]
      omega

end PicoSched.Filling.Problem

namespace PicoSched.Refinement

open Filling Loop TaskManager Main PreAssign

variable {cfg : Config} {creates : ℕ → Option TaskHandle}
  {table : TaskTable cfg} {state after : State cfg} {plan : Plan (CorePtr cfg)}

/-- The packing of a task list. -/
def packing (table : TaskTable cfg) : Plan (CorePtr cfg) :=
  (spa2Problem table).pack (prepare table cfg.numOfTask).free cfg.numOfTask
    cfg.maxNumTasks ⟨[], (spa2Problem table).pieces⟩

/-! ## The core of an iteration -/

theorem assigned_taskSplit (task tail : TaskPtr cfg) (core : CorePtr cfg)
    (coreStack : CoreStack cfg) (stack : TaskStack cfg) (memory : Memory cfg) :
    (taskSplit creates task tail core coreStack stack memory).2.assigned =
      memory.assigned := by
  simp only [taskSplit, pushTask, pushEntry]
  split <;> rfl

theorem assigned_assignOrSplit {task : TaskPtr cfg} {core : CorePtr cfg}
    {coreManager : CoreStack cfg} {stack stack' : TaskStack cfg}
    {memory memory' : Memory cfg}
    (hresult : assignOrSplit creates task core coreManager stack memory =
      .ok (stack', memory')) :
    memory'.assigned = (task, core) :: memory.assigned := by
  rw [assignOrSplit] at hresult
  split at hresult
  · cases hresult
    exact assigned_assignTask ..
  · split at hresult
    · cases hresult
    · rename_i tail middle hnew
      cases hresult
      obtain ⟨_, rfl⟩ := newTask_eq_some hnew
      rw [assigned_assignTask, assigned_taskSplit]
      rfl

/-- The cores an iteration looks at, and the one it assigns to. -/
theorem exists_selected
    (hbody : normalAssignBody creates state = .ok (.next after)) :
    ∃ minCore core task preAssignedCore,
      getMinCore state.coreManager state.memory.coreList = .ok minCore ∧
        selectCore minCore state.preAssignedCore state.memory =
          .ok (some core, preAssignedCore, state.memory) ∧
        after.memory.assigned = (task, core) :: state.memory.assigned := by
  rw [normalAssignBody] at hbody
  split at hbody
  · cases hbody
  · rename_i minCore hmin
    split at hbody
    · cases hbody
    · rename_i task uq memory hpop
      obtain ⟨_, rfl⟩ := popTask_eq_some hpop
      split at hbody
      · cases hbody
      · cases hbody
      · rename_i core preAssignedCore memory hselect
        obtain rfl := selectCore_eq_some hselect
        split at hbody
        · cases hbody
        · rename_i uq' memory' hassign
          have hassigned := assigned_assignOrSplit hassign
          refine ⟨minCore, core, task, preAssignedCore, hmin, hselect, ?_⟩
          split at hbody
          · cases hbody
            simp only [pushCore, pushEntry]
            split <;> exact hassigned
          · cases hbody
            exact hassigned

theorem Spa2State.leastLoaded (hstate : Spa2State creates table state plan)
    {minCore : CorePtr cfg}
    (hmin : getMinCore state.coreManager state.memory.coreList = .ok minCore) :
    (spa2Problem table).leastLoaded plan
      (prepare table cfg.numOfTask).free = some minCore := by
  rw [getMinCore, hstate.free] at hmin
  cases hfree : (prepare table cfg.numOfTask).free with
  | nil =>
      rw [hfree] at hmin
      cases hmin
  | cons first rest =>
      rw [hfree] at hmin
      simp only [hstate.utilization] at hmin
      exact congrArg some (Except.ok.inj hmin)

theorem Spa2State.nextCore (hstate : Spa2State creates table state plan)
    {minCore core : CorePtr cfg} {preAssignedCore : CoreStack cfg}
    (hmin : getMinCore state.coreManager state.memory.coreList = .ok minCore)
    (hselect : selectCore minCore state.preAssignedCore state.memory =
      .ok (some core, preAssignedCore, state.memory)) :
    (spa2Problem table).nextCore (prepare table cfg.numOfTask).free plan =
      some core := by
  have hbound : (spa2Problem table).bound = cfg.utilizationBound := rfl
  rw [Problem.nextCore, hstate.leastLoaded hmin, hbound]
  dsimp only
  rw [selectCore, hstate.utilization] at hselect
  by_cases hfull : cfg.utilizationBound ≤ (spa2Problem table).load plan minCore
  · rw [if_neg (not_lt.mpr hfull)]
    rw [if_pos hfull] at hselect
    rw [← hstate.reserve]
    cases hentries : state.preAssignedCore.list.entries with
    | nil =>
        simp only [popCore, popEntry_of_nil hentries] at hselect
        cases hselect
    | cons first rest =>
        simp only [popCore, popEntry_of_cons hentries,
          hstate.utilization] at hselect
        by_cases hfirst : cfg.utilizationBound ≤
            (spa2Problem table).load plan first
        · rw [if_pos hfirst] at hselect
          cases hselect
        · rw [if_neg hfirst] at hselect
          cases hselect
          simpa using hfirst
  · rw [if_pos (lt_of_not_ge hfull)]
    rw [if_neg hfull] at hselect
    cases hselect
    rfl

/-! ## The refinement -/

/-- Placing in memory is placing in the packing. -/
theorem PlacesIn.place_eq {P : Problem (CorePtr cfg)} {core : CorePtr cfg}
    {stack stack' : TaskStack cfg} {memory memory' : Memory cfg}
    {plan' : Plan (CorePtr cfg)}
    (hrep : Represents creates table P stack memory plan)
    (hplaces : PlacesIn creates P core stack memory plan stack' memory' plan') :
    P.place (cfg.numOfTask + (plan.placed.filter Placement.body).length) core
      plan = plan' := by
  rw [hrep.bodies_length]
  cases hplaces with
  | fit _ hfit =>
      rw [Problem.place]
      dsimp only
      rw [if_pos (le_sub_iff_add_le'.mpr hfit)]
  | split _ _ hroom hover =>
      rw [Problem.place]
      dsimp only
      rw [if_neg (not_le.mpr (sub_lt_iff_lt_add'.mpr hover)), hroom]

theorem PlacesIn.assigned_eq {P : Problem (CorePtr cfg)} {core : CorePtr cfg}
    {stack stack' : TaskStack cfg} {memory memory' : Memory cfg}
    {plan' : Plan (CorePtr cfg)}
    (hplaces : PlacesIn creates P core stack memory plan stack' memory' plan') :
    ∃ task, memory'.assigned = (task, core) :: memory.assigned := by
  cases hplaces with
  | fit _ _ => exact ⟨_, assigned_assignTask ..⟩
  | split _ _ _ _ => exact ⟨_, assigned_assignTask ..⟩

/-- An iteration of the loop is a step of the packing. -/
theorem Spa2State.next_place (hstate : Spa2State creates table state plan)
    (hguard : (normalAssign creates).guard state = true)
    (hbody : normalAssignBody creates state = .ok (.next after)) :
    ∃ core plan', (spa2Problem table).nextCore
        (prepare table cfg.numOfTask).free plan = some core ∧
      (spa2Problem table).place
        (cfg.numOfTask + (plan.placed.filter Placement.body).length) core
        plan = plan' ∧
      (spa2Problem table).Target plan core ∧
      PlacesIn creates (spa2Problem table) core state.uq state.memory plan
        after.uq after.memory plan' ∧
      Spa2State creates table after plan' := by
  obtain ⟨core, plan', htarget, hplaces, hafter⟩ := hstate.next hguard hbody
  obtain ⟨minCore, selected, task, preAssignedCore, hmin, hselect, hassigned⟩ :=
    exists_selected hbody
  obtain ⟨task', hassigned'⟩ := hplaces.assigned_eq
  have hcore : selected = core := by
    rw [hassigned, List.cons.injEq] at hassigned'
    exact (Prod.mk.inj hassigned'.1).2
  have hnext := hstate.nextCore hmin hselect
  rw [hcore] at hnext
  exact ⟨core, plan', hnext, hplaces.place_eq hstate.represents, htarget,
    hplaces, hafter⟩

/-! ## The packing within the slots -/

/-- The packing of a task list as far as `task_list` has rows for the tails. -/
def slotPacking (table : TaskTable cfg) : Plan (CorePtr cfg) :=
  (spa2Problem table).packWithin (prepare table cfg.numOfTask).free
    cfg.numOfTask cfg.maxNumTasks cfg.maxNumTasks
    ⟨[], (spa2Problem table).pieces⟩

/-- The rest of the packing from a state of the loop, with fuel for all pieces
and slots that are left. -/
def Leads (table : TaskTable cfg) (fuel : ℕ) (state : State cfg)
    (plan : Plan (CorePtr cfg)) : Prop :=
  remaining state.uq state.memory ≤ fuel ∧
    (spa2Problem table).packWithin (prepare table cfg.numOfTask).free
      cfg.numOfTask cfg.maxNumTasks fuel plan = slotPacking table

theorem leads_start {start : State cfg}
    (hstart : Chosen creates table cfg.numOfTask start) :
    Leads table cfg.maxNumTasks start ⟨[], (spa2Problem table).pieces⟩ := by
  refine ⟨?_, rfl⟩
  have hlength := congrArg List.length hstart.uq
  rw [List.length_map, List.length_map] at hlength
  have hwaiting := waiting_length_le table cfg.numOfTask
  have hmax := cfg.numOfTask_le_maxNumTasks
  rw [remaining, hstart.currIdx]
  omega

theorem Spa2State.mem_free (hstate : Spa2State creates table state plan)
    (core : CorePtr cfg) : core ∈ (spa2Problem table).normal ↔
      core ∈ (prepare table cfg.numOfTask).free := by
  rw [hstate.mem_normal, hstate.free]

/-- An iteration takes the next placement of the packing. -/
theorem Spa2State.next_leads (hstate : Spa2State creates table state plan)
    {fuel : ℕ} (hleads : Leads table fuel state plan)
    (hguard : (normalAssign creates).guard state = true)
    (hbody : normalAssignBody creates state = .ok (.next after)) :
    ∃ fuel' plan', fuel' < fuel ∧ Leads table fuel' after plan' ∧
      Spa2State creates table after plan' := by
  obtain ⟨core, plan', hnext, hplace, _, hplaces, hafter⟩ :=
    hstate.next_place hguard hbody
  have hless := hplaces.remaining_lt
  obtain ⟨hfuel, hpacking⟩ := hleads
  obtain ⟨fuel, rfl⟩ := Nat.exists_eq_add_one_of_ne_zero
    (Nat.ne_zero_of_lt (hless.trans_le hfuel))
  refine ⟨fuel, plan', Nat.lt_succ_self fuel, ⟨by omega, ?_⟩, hafter⟩
  rw [Problem.packWithin, hnext] at hpacking
  dsimp only at hpacking
  rwa [hplace, hafter.represents.bodies_length,
    if_pos hafter.represents.currIdx_le] at hpacking

/-- Every head of the loop is on the way to the packing. -/
theorem spa2Head_leads (hhead : Spa2Head creates table state) :
    ∃ fuel plan, Leads table fuel state plan ∧
      Spa2State creates table state plan := by
  obtain ⟨ready, start, hsetup, hpre, hloop⟩ := hhead
  have hstart := chosen_of_preAssign hsetup hpre
  apply hloop.invariant
  · exact ⟨_, _, leads_start hstart, spa2State_start hstart⟩
  · rintro state after ⟨fuel, plan, hleads, hstate⟩ hguard hbody
    obtain ⟨fuel', plan', _, hafter⟩ := hstate.next_leads hleads hguard hbody
    exact ⟨fuel', plan', hafter⟩

/-- Where an iteration does not go on, the packing ends as well. -/
theorem Spa2Iteration.packWithin_eq
    (hstate : Spa2State creates table state plan)
    {result : Except Fault (Flow (State cfg))}
    (hiteration : Spa2Iteration creates table state plan result)
    (hends : ∀ after, result ≠ .ok (.next after)) (fuel : ℕ) :
    (spa2Problem table).packWithin (prepare table cfg.numOfTask).free
      cfg.numOfTask cfg.maxNumTasks fuel plan = plan := by
  have hfree : ∀ {core}, core ∈ (prepare table cfg.numOfTask).free →
      core ∈ (spa2Problem table).normal := (hstate.mem_free _).mpr
  cases hiteration with
  | noCore hnormal =>
      apply Problem.packWithin_of_none
      have hnil : (prepare table cfg.numOfTask).free = [] := by
        rw [List.eq_nil_iff_forall_not_mem]
        intro core hcore
        exact absurd (hnormal ▸ hfree hcore) (Finset.notMem_empty core)
      rw [hnil, Problem.nextCore_of_nil]
  | noReserve _ hfull hreserve =>
      apply Problem.packWithin_of_none
      apply Problem.nextCore_of_full fun core hcore => hfull core (hfree hcore)
      rw [hreserve]
      nofun
  | exhausted _ hfull hhead hcore _ _ =>
      apply Problem.packWithin_of_none
      apply Problem.nextCore_of_full fun core hcore => hfull core (hfree hcore)
      intro core hsome
      obtain rfl := Option.some.inj (hhead.symm.trans hsome)
      exact hcore
  | noSlot hqueue htarget hover hslot =>
      cases hnext : (spa2Problem table).nextCore
          (prepare table cfg.numOfTask).free plan with
      | none => exact Problem.packWithin_of_none hnext _ _ _
      | some core =>
          have hload := htarget.load_eq
            (Problem.target_of_nextCore hstate.mem_free hnext)
          refine Problem.packWithin_of_split hnext hqueue ?_ ?_ fuel
          · rw [← hload]
            exact hover
          · rw [hstate.represents.bodies_length, hslot]
  | places _ _ _ => exact absurd rfl (hends _)

/-- From every head the loop comes to a state that represents the packing. -/
theorem Spa2Head.exists_slotPacking (hhead : Spa2Head creates table state)
    (hstate : Spa2State creates table state plan) {fuel : ℕ}
    (hleads : Leads table fuel state plan) : ∃ final,
      Spa2Head creates table final ∧
        Spa2State creates table final (slotPacking table) := by
  induction fuel using Nat.strong_induction_on generalizing state plan with
  | _ fuel ih =>
      by_cases hnext : (normalAssign creates).guard state = true ∧
          ∃ after, normalAssignBody creates state = .ok (.next after)
      · obtain ⟨hguard, after, hbody⟩ := hnext
        obtain ⟨fuel', plan', hless, hleads', hafter⟩ :=
          hstate.next_leads hleads hguard hbody
        exact ih fuel' hless (Spa2Head.next hhead hguard hbody) hafter hleads'
      · have hends : slotPacking table = plan := by
          rw [← hleads.2]
          by_cases hguard : (normalAssign creates).guard state = true
          · refine (hstate.iteration hguard).packWithin_eq hstate ?_ fuel
            exact fun after hbody => hnext ⟨hguard, after, hbody⟩
          · have hempty : plan.queue = [] := by
              simpa [normalAssign, hstate.represents.guard_eq] using hguard
            exact Problem.packWithin_of_nil hempty _ _ _ _
        exact ⟨state, hhead, hends ▸ hstate⟩

theorem exists_head_slotPacking (creates : ℕ → Option TaskHandle)
    (table : TaskTable cfg) : ∃ state, Spa2Head creates table state ∧
      Spa2State creates table state (slotPacking table) := by
  obtain ⟨ready, start, hsetup, hpre, hstart, _⟩ := spa2_eq_run creates table
  have hhead : Spa2Head creates table start :=
    ⟨ready, start, hsetup, hpre, .start⟩
  exact Spa2Head.exists_slotPacking hhead (spa2State_start hstart)
    (leads_start hstart)

/-- What the placements of the loop keep. -/
def Kept (creates : ℕ → Option TaskHandle) (table : TaskTable cfg)
    (invariant : Memory cfg → Plan (CorePtr cfg) → Prop) : Prop :=
  ∀ {state after : State cfg} {plan plan' : Plan (CorePtr cfg)}
    {core : CorePtr cfg}, Spa2State creates table state plan →
    (spa2Problem table).Target plan core →
    PlacesIn creates (spa2Problem table) core state.uq state.memory plan
      after.uq after.memory plan' →
    invariant state.memory plan → invariant after.memory plan'

/-- A run of the loop that ends by its guard computes the packing. -/
theorem Spa2State.pack_of_run
    {invariant : Memory cfg → Plan (CorePtr cfg) → Prop}
    (hkept : Kept creates table invariant) {fuel : ℕ} {final : State cfg}
    (hstate : Spa2State creates table state plan)
    (hinvariant : invariant state.memory plan)
    (hrun : (normalAssign creates).run fuel state = .done final) :
    Spa2State creates table final ((spa2Problem table).pack
        (prepare table cfg.numOfTask).free cfg.numOfTask fuel plan) ∧
      invariant final.memory ((spa2Problem table).pack
        (prepare table cfg.numOfTask).free cfg.numOfTask fuel plan) := by
  induction fuel generalizing state plan with
  | zero =>
      rw [While.run] at hrun
      split at hrun
      · cases hrun
      · cases hrun
        exact ⟨hstate, hinvariant⟩
  | succ fuel ih =>
      rw [While.run] at hrun
      split at hrun
      · rename_i hguard
        split at hrun
        · cases hrun
        · cases hrun
        · rename_i after hbody
          obtain ⟨core, plan', hcore, hplace, htarget, hplaces, hafter⟩ :=
            hstate.next_place hguard hbody
          rw [Problem.pack, hcore]
          dsimp only
          rw [hplace]
          exact ih hafter (hkept hstate htarget hplaces hinvariant) hrun
      · rename_i hguard
        cases hrun
        have hempty : plan.queue = [] := by
          simpa [normalAssign, hstate.represents.guard_eq] using hguard
        rw [Problem.pack_of_nil hempty]
        exact ⟨hstate, hinvariant⟩

/-- When the SPA2 branch ends with an empty queue, its memory holds the packing
of the task list, with all that the placements keep. -/
theorem spa2_packing {invariant : Memory cfg → Plan (CorePtr cfg) → Prop}
    (hkept : Kept creates table invariant)
    (hinvariant : ∀ start, Chosen creates table cfg.numOfTask start →
      invariant start.memory ⟨[], (spa2Problem table).pieces⟩)
    {final : State cfg} (hrun : spa2 creates table = .done final) :
    Spa2State creates table final (packing table) ∧
      invariant final.memory (packing table) ∧ (packing table).queue = [] := by
  obtain ⟨ready, start, _, _, hstart, hspa2⟩ := spa2_eq_run creates table
  rw [hspa2] at hrun
  have hfinal : Spa2State creates table final (packing table) ∧
      invariant final.memory (packing table) :=
    (spa2State_start hstart).pack_of_run hkept (hinvariant start hstart) hrun
  refine ⟨hfinal.1, hfinal.2, ?_⟩
  have hguard := (While.run_eq_done hrun).2
  simpa [normalAssign, hfinal.1.represents.guard_eq] using hguard

end PicoSched.Refinement
