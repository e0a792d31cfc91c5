import PicoSched.Allocation.Chains
import PicoSched.Allocation.Packing
import PicoSched.Model.TaskList

/-!
# Split tasks at the loop heads

What the normal-assign loop has made of every task whenever it looks at the
queue: one chain of pieces on different cores, which together have the
utilization and the runtime of the task.
-/

namespace PicoSched.Refinement

open BoundedStack Filling Kernel TaskManager Main PreAssign

variable {cfg : Config} {creates : ℕ → Option TaskHandle}
  {table : TaskTable cfg} {state after : State cfg} {plan : Plan (CorePtr cfg)}

/-! ## The start -/

theorem mem_slotTasks_start (table : TaskTable cfg) (slot task : ℕ) :
    (slot, task) ∈ slotTasks (spa2Problem table)
        ⟨[], (spa2Problem table).pieces⟩ ↔
      slot = task ∧ slot < cfg.numOfTask := by
  have hperm := prepare_perm table cfg.numOfTask
  constructor
  · intro hmem
    rcases List.mem_append.mp hmem with hqueue | hgiven
    · obtain ⟨p, hp, heq⟩ := List.mem_map.mp hqueue
      obtain ⟨rfl, rfl⟩ := Prod.mk.inj heq
      obtain ⟨hpiece, hless, _⟩ := mem_waiting p hp
      rw [hpiece]
      exact ⟨rfl, hless⟩
    · obtain ⟨x, hx, heq⟩ := List.mem_map.mp hgiven
      obtain ⟨rfl, rfl⟩ := Prod.mk.inj heq
      obtain ⟨_, hpiece, hless, _⟩ := mem_given x hx
      rw [hpiece]
      exact ⟨rfl, hless⟩
  · rintro ⟨rfl, hless⟩
    have hmem := hperm.mem_iff.mpr (List.mem_range.mpr hless)
    rcases List.mem_append.mp hmem with hqueue | hgiven
    · obtain ⟨p, hp, rfl⟩ := List.mem_map.mp hqueue
      refine List.mem_append_left _ (List.mem_map.mpr ⟨p, hp, ?_⟩)
      rw [(mem_waiting p hp).1]
      rfl
    · obtain ⟨x, hx, rfl⟩ := List.mem_map.mp hgiven
      refine List.mem_append_right _ (List.mem_map.mpr ⟨x, hx, ?_⟩)
      rw [(mem_given x hx).2.1]
      rfl

/-- The utilization of a task asks for no more ticks than it has. -/
theorem load_mul_period_le (table : TaskTable cfg) (index : Fin cfg.numOfTask) :
    load table index * (table.task index).period ≤
      (table.task index).runtime := by
  rw [load_original]
  by_cases hperiod : ((table.task index).period : ℚ) = 0
  · rw [hperiod, mul_zero]
    exact Nat.cast_nonneg _
  · rw [div_mul_cancel₀ _ hperiod]

theorem chains_start {start : State cfg}
    (hstart : Chosen creates table cfg.numOfTask start) :
    Chains table (spa2Problem table) start.memory
      ⟨[], (spa2Problem table).pieces⟩ fun index => [cfg.original index] := by
  have hinfo : ∀ index : Fin cfg.numOfTask,
      start.memory.taskList (cfg.original index) =
        { table.entry (cfg.original index) with
          utilization := load table index
          heavy := decide (getLighttask cfg.utilizationBound <
            load table index)
          myPtr := creates index } := by
    intro index
    have hless : (cfg.original index).val < cfg.numOfTask := index.isLt
    rw [hstart.taskList, initialInfo, if_pos hless]
    rfl
  have hsplitted : ∀ slot,
      (start.memory.taskList slot).splittedPtr = none := by
    intro slot
    rw [hstart.taskList, initialInfo]
    split <;> exact table.splittedPtr_eq slot
  constructor
  · intro index
    constructor
    · exact List.nodup_singleton _
    · rfl
    · rw [hinfo]
      exact table.subnum_eq _
    · exact .singleton _
    · exact fun slot _ => hsplitted slot
    · rw [List.map_singleton, List.sum_singleton, hinfo]
    · rw [List.map_singleton, List.sum_singleton, hinfo]
      rfl
  · intro index slot
    rw [mem_slotTasks_start, List.mem_singleton, Fin.ext_iff,
      Config.val_original]
    constructor
    · exact fun heq => ⟨heq, heq ▸ index.isLt⟩
    · exact fun hboth => hboth.1
  · intro p hp slot hslot index hindex
    have hpiece : p.slot = p.task := congrArg Piece.slot (mem_waiting p hp).1
    have hval : slot = cfg.original index := by
      apply Fin.ext
      rw [hslot, hpiece, Config.val_original, hindex]
    rw [hval]
    rfl
  · exact fun slot hslot => absurd (hsplitted slot) hslot
  · intro split hsplit
    rw [hstart.splits] at hsplit
    exact absurd hsplit List.not_mem_nil
  · intro p hp slot hslot
    obtain ⟨hpiece, hless, _⟩ := mem_waiting p hp
    have hval : slot = cfg.original ⟨p.task, hless⟩ :=
      Fin.ext (hslot.trans (congrArg Piece.slot hpiece))
    have hload : p.load = load table p.task := congrArg Piece.load hpiece
    rw [hval, hinfo, hload]
    exact load_mul_period_le table ⟨p.task, hless⟩

/-! ## The heads -/

/-- A state at a loop head, with the chains of the tasks. -/
structure ChainState (creates : ℕ → Option TaskHandle) (table : TaskTable cfg)
    (state : State cfg) (plan : Plan (CorePtr cfg))
    (chain : Fin cfg.numOfTask → List (TaskPtr cfg)) : Prop where
  head : Spa2State creates table state plan
  chains : Chains table (spa2Problem table) state.memory plan chain

/-- The placements of the loop keep the chains. -/
theorem chains_kept : Kept creates table fun memory plan =>
    ∃ chain, Chains table (spa2Problem table) memory plan chain := by
  rintro state after plan plan' core hstate htarget hplaces ⟨chain, hchains⟩
  have hopen := htarget.open_core
  have hrep := hstate.represents
  have hdescending := hstate.reaches.descending
  generalize after.uq = uq at hplaces
  generalize after.memory = memory at hplaces ⊢
  cases hplaces with
  | fit hentries hfit => exact ⟨chain, hchains.fit⟩
  | @split task rest placed piece pieces room hentries hslot hroom hover =>
      obtain ⟨task', _, piece', _, hentries', hqueue, htask, _⟩ :=
        hrep.top (List.cons_ne_nil _ _)
      obtain ⟨rfl, _⟩ := List.cons.inj hqueue
      obtain ⟨rfl, _⟩ := List.cons.inj (hentries.symm.trans hentries')
      obtain ⟨index, hindex, _⟩ :=
        (hrep.waiting task piece (List.mem_cons_self ..) htask).1.origin
      refine ⟨_, hchains.split hrep hdescending htask hslot hindex ?_ ?_⟩
      · rw [hroom]
        exact (sub_pos.mpr hopen).le
      · linarith

theorem ChainState.next {chain : Fin cfg.numOfTask → List (TaskPtr cfg)}
    (hstate : ChainState creates table state plan chain)
    (hguard : (normalAssign creates).guard state = true)
    (hbody : normalAssignBody creates state = .ok (.next after)) :
    ∃ plan' chain', ChainState creates table after plan' chain' := by
  obtain ⟨core, plan', htarget, hplaces, hafter⟩ :=
    hstate.head.next hguard hbody
  obtain ⟨chain', hchains⟩ :=
    chains_kept hstate.head htarget hplaces ⟨chain, hstate.chains⟩
  exact ⟨plan', chain', hafter, hchains⟩

/-- Every state at the head of the SPA2 loop has its chains. -/
theorem spa2Head_chains (hhead : Spa2Head creates table state) :
    ∃ plan chain, ChainState creates table state plan chain := by
  obtain ⟨ready, start, hsetup, hpre, hloop⟩ := hhead
  have hstart := chosen_of_preAssign hsetup hpre
  apply hloop.invariant
  · exact ⟨_, _, spa2State_start hstart, chains_start hstart⟩
  · rintro state after ⟨plan, chain, hstate⟩ hguard hbody
    exact hstate.next hguard hbody

/-! ## Well-formed chains -/

/-- The slot holds a piece of the declared task: repeated splits led to it. -/
def PieceOf (memory : Memory cfg) (index : Fin cfg.numOfTask)
    (slot : TaskPtr cfg) : Prop :=
  Relation.ReflTransGen (fun body tail => (body, tail) ∈ memory.splits)
    (cfg.original index) slot

/-- The pieces of a task in the order in which they execute.  The subnumber of
the piece at place `n` is `numbering n`. -/
structure SplitChain (numbering : ℕ → ℕ) (table : TaskTable cfg)
    (state : State cfg) (index : Fin cfg.numOfTask)
    (pieces : List (TaskPtr cfg)) : Prop where
  members : ∀ slot, slot ∈ pieces ↔ PieceOf state.memory index slot
  nodup : pieces.Nodup
  first : pieces.head? = some (cfg.original index)
  linked : pieces.IsChain fun piece next =>
    (state.memory.taskList piece).splittedPtr =
        (state.memory.taskList next).myPtr ∧
      (state.memory.taskList piece).splittedPtr ≠ none
  last : ∀ piece ∈ pieces.getLast?,
    (state.memory.taskList piece).splittedPtr = none
  subnum : ∀ place piece, pieces[place]? = some piece →
    (state.memory.taskList piece).subnum = numbering place
  dependent : ∀ piece ∈ pieces.tail,
    (state.memory.taskList piece).dependency = true ∧
      ∃! body, (state.memory.taskList body).splittedPtr =
        (state.memory.taskList piece).myPtr
  assigned : ∀ piece ∈ pieces.dropLast,
    ∃! core, (piece, core) ∈ state.memory.assigned
  waiting : ∀ piece ∈ pieces.getLast?, piece ∈ state.uq.entries ∨
    ∃! core, (piece, core) ∈ state.memory.assigned
  apart : ∀ piece ∈ pieces, ∀ other ∈ pieces, ∀ core,
    (piece, core) ∈ state.memory.assigned →
      (other, core) ∈ state.memory.assigned → piece = other
  period : ∀ piece ∈ pieces, (state.memory.taskList piece).period =
    (table.task index).period
  priority : ∀ piece ∈ pieces, (state.memory.taskList piece).priority =
    (table.task index).priority
  taskName : ∀ piece ∈ pieces, (state.memory.taskList piece).taskName =
    (table.task index).taskName
  utilization : (pieces.map fun piece =>
    (state.memory.taskList piece).utilization).sum =
      ((table.task index).runtime : ℚ) / (table.task index).period
  runtime : (pieces.map fun piece =>
    (state.memory.taskList piece).runtime).sum = (table.task index).runtime

/-- The two numbers a split assigns to a `Runtime` are neither negative nor
larger than the runtime of the piece it splits. -/
def ConversionsFit (before after : Memory cfg) : Prop :=
  ∀ task tail, after.splits = (task, tail) :: before.splits →
    let ticks : ℚ := (after.taskList task).utilization *
      (before.taskList task).period
    let rest : ℚ := (before.taskList task).runtime -
      (after.taskList task).runtime
    (0 ≤ ticks ∧ ticks ≤ (before.taskList task).runtime) ∧
      0 ≤ rest ∧ rest ≤ (before.taskList task).runtime

/-- The run of the SPA2 branch keeps the chains of all tasks well formed. -/
def ChainsWellFormed (numbering : ℕ → ℕ) (creates : ℕ → Option TaskHandle)
    (table : TaskTable cfg) : Prop :=
  ∀ state, Spa2Head creates table state →
    (∀ index, ∃ pieces, SplitChain numbering table state index pieces) ∧
      ∀ after, (normalAssign creates).guard state = true →
        normalAssignBody creates state = .ok (.next after) →
          ConversionsFit state.memory after.memory

/-! ## Subnumbers and origins along a chain -/

/-- Counting along a chain. -/
theorem number_of_isChain {α : Type*} {number : α → ℕ} {modulus : ℕ}
    {list : List α}
    (hchain : list.IsChain fun first second =>
      number second = (number first + 1) % modulus)
    (hfirst : ∀ first ∈ list.head?, number first = 1 % modulus) :
    ∀ place value, list[place]? = some value →
      number value = (place + 1) % modulus := by
  rw [List.isChain_iff_getElem] at hchain
  intro place
  induction place with
  | zero =>
      intro value hvalue
      rw [← List.head?_eq_getElem?] at hvalue
      exact hfirst value hvalue
  | succ place ih =>
      intro value hvalue
      obtain ⟨hless, rfl⟩ := List.getElem?_eq_some_iff.mp hvalue
      have hplace : list[place]? = some list[place] :=
        List.getElem?_eq_getElem (Nat.lt_of_succ_lt hless)
      rw [hchain place hless, ih _ hplace, Nat.mod_add_mod]

/-- Everything on a chain is reached from its end. -/
theorem reflTransGen_of_isChain {α : Type*} {relation : α → α → Prop}
    {origin : α} {list : List α}
    (hchain : list.IsChain fun second first => relation first second)
    (hlast : list.getLast? = some origin) :
    ∀ value ∈ list, Relation.ReflTransGen relation origin value := by
  induction list with
  | nil => nofun
  | cons second rest ih =>
      cases rest with
      | nil =>
          obtain rfl : second = origin := Option.some.inj hlast
          intro value hvalue
          rw [List.mem_singleton.mp hvalue]
      | cons first others =>
          obtain ⟨hstep, hrest⟩ := List.isChain_cons_cons.mp hchain
          rw [List.getLast?_cons_cons] at hlast
          have hreach := ih hrest hlast
          rw [List.forall_mem_cons]
          exact ⟨(hreach first (List.mem_cons_self ..)).tail hstep, hreach⟩

/-- Everything but the last value of a chain has a successor. -/
theorem exists_succ_of_isChain {α : Type*} {relation : α → α → Prop}
    {list : List α} (hchain : list.IsChain relation) {value : α}
    (hvalue : value ∈ list.dropLast) : ∃ next, relation value next := by
  rw [List.isChain_iff_getElem] at hchain
  obtain ⟨place, hplace, rfl⟩ := List.mem_iff_getElem.mp hvalue
  rw [List.length_dropLast] at hplace
  rw [List.getElem_dropLast]
  exact ⟨_, hchain place (by omega)⟩

/-- Everything but the first value of a chain has a predecessor. -/
theorem exists_pred_of_isChain {α : Type*} {relation : α → α → Prop}
    {list : List α} (hchain : list.IsChain relation) {value : α}
    (hvalue : value ∈ list.tail) : ∃ previous, relation previous value := by
  rw [List.isChain_iff_getElem] at hchain
  obtain ⟨place, hplace, rfl⟩ := List.mem_iff_getElem.mp hvalue
  rw [List.length_tail] at hplace
  rw [List.getElem_tail]
  exact ⟨_, hchain place (by omega)⟩

section Chain

variable {P : Problem (CorePtr cfg)} {stack : TaskStack cfg}
  {memory : Memory cfg} {chain : Fin cfg.numOfTask → List (TaskPtr cfg)}
  {index : Fin cfg.numOfTask}

/-- A piece waits or has been assigned once. -/
theorem Represents.waiting_or_assigned
    (hrep : Represents creates table P stack memory plan) {slot : TaskPtr cfg}
    {task : ℕ} (hslot : (slot.val, task) ∈ slotTasks P plan) :
    (slot ∈ stack.entries ∧ (memory.taskList slot).splittedPtr = none) ∨
      ∃! core, (slot, core) ∈ memory.assigned := by
  rcases List.mem_append.mp hslot with hqueue | hplaced
  · obtain ⟨p, hp, heq⟩ := List.mem_map.mp hqueue
    have hval : slot.val = p.slot := (congrArg Prod.fst heq).symm
    have hentry : slot.val ∈ stack.entries.map Fin.val := by
      rw [hrep.queue, hval]
      exact List.mem_map_of_mem hp
    obtain ⟨other, hother, heq⟩ := List.mem_map.mp hentry
    rw [← Fin.ext heq]
    rw [← Fin.ext heq] at hval
    exact .inl ⟨hother, (hrep.waiting other p hp hval).2⟩
  · obtain ⟨x, hx, heq⟩ := List.mem_map.mp hplaced
    have hval : slot.val = x.piece.slot := (congrArg Prod.fst heq).symm
    refine .inr ⟨x.core, hrep.assigned_of_placement hx hval, ?_⟩
    intro core hcore
    obtain ⟨y, hy, hslot', hcore'⟩ := hrep.placement_of_assigned hcore
    have hsame : x = y := hrep.placement_eq hx hy (hval.symm.trans hslot')
    exact hcore'.trans (congrArg Placement.core hsame.symm)

/-- Two pieces of a task on one core are one piece. -/
theorem Chains.apart (hrep : Represents creates table P stack memory plan)
    (hreach : P.Reaches plan) (hchains : Chains table P memory plan chain)
    {piece other : TaskPtr cfg} (hpiece : piece ∈ chain index)
    (hother : other ∈ chain index) {core : CorePtr cfg}
    (hcore : (piece, core) ∈ memory.assigned)
    (hcore' : (other, core) ∈ memory.assigned) : piece = other := by
  obtain ⟨x, hx, hslot, hxcore⟩ := hrep.placement_of_assigned hcore
  obtain ⟨y, hy, hslot', hycore⟩ := hrep.placement_of_assigned hcore'
  have htask : ∀ {slot : TaskPtr cfg} {z : Placement (CorePtr cfg)},
      slot ∈ chain index → z ∈ plan.placed ++ P.given →
        slot.val = z.piece.slot → z.piece.task = index.val := by
    intro slot z hmem hz hval
    have hindex := (hchains.member index slot).mp hmem
    have hplaced : (slot.val, z.piece.task) ∈ slotTasks P plan := by
      rw [hval]
      exact List.mem_append_right _
        (List.mem_map_of_mem (f := fun x => (x.piece.slot, x.piece.task)) hz)
    exact hrep.task_eq hplaced hindex
  by_contra hne
  have hxy : x ≠ y := by
    rintro rfl
    exact hne (Fin.ext (hslot.trans hslot'.symm))
  have hsymm : Std.Symm fun x y : Placement (CorePtr cfg) =>
      x.piece.task = y.piece.task → x.core ≠ y.core :=
    ⟨fun _ _ hapart htask hcore => hapart htask.symm hcore.symm⟩
  have hapart := hreach.cores_apart.forall hx hy hxy
  exact hapart ((htask hpiece hx hslot).trans (htask hother hy hslot').symm)
    (hxcore.symm.trans hycore)

/-- The chain of a task consists of its pieces. -/
theorem Chains.mem_iff_pieceOf (hchains : Chains table P memory plan chain)
    (slot : TaskPtr cfg) : slot ∈ chain index ↔ PieceOf memory index slot := by
  have hchain := hchains.each index
  constructor
  · refine reflTransGen_of_isChain ?_ hchain.first slot
    exact hchain.linked.imp fun _ _ hlink => hlink.cut
  · intro hpiece
    induction hpiece with
    | refl => exact hchain.original_mem
    | tail _ hsplit ih => exact hchains.inside _ hsplit index ih

/-- The pieces of a task share its period, its priority and its name. -/
theorem Chains.origin (hrep : Represents creates table P stack memory plan)
    (hchains : Chains table P memory plan chain) {slot : TaskPtr cfg}
    (hslot : slot ∈ chain index) :
    (memory.taskList slot).period = (table.task index).period ∧
      (memory.taskList slot).priority = (table.task index).priority ∧
      (memory.taskList slot).taskName = (table.task index).taskName := by
  have hshared : ∀ {p : Piece}, Carries table p (memory.taskList slot) →
      p.task = index.val →
        (memory.taskList slot).period = (table.task index).period ∧
          (memory.taskList slot).priority = (table.task index).priority ∧
          (memory.taskList slot).taskName = (table.task index).taskName := by
    intro p hcarries htask
    obtain ⟨other, hother, hdata⟩ := hcarries.origin
    rw [← Fin.ext (hother.trans htask)]
    exact hdata
  rcases List.mem_append.mp ((hchains.member index slot).mp hslot) with
    hqueue | hplaced
  · obtain ⟨p, hp, heq⟩ := List.mem_map.mp hqueue
    obtain ⟨hval, htask⟩ := Prod.mk.inj heq
    exact hshared (hrep.waiting slot p hp hval.symm).1 htask
  · obtain ⟨x, hx, heq⟩ := List.mem_map.mp hplaced
    obtain ⟨hval, htask⟩ := Prod.mk.inj heq
    exact hshared (hrep.placed slot x hx hval.symm).1 htask

/-- The handle of a tail is not NULL when the creations have succeeded. -/
theorem Link.handle (hrep : Represents creates table P stack memory plan)
    (hcreates : ∀ call < memory.currIdx, creates call ≠ none) {next piece : TaskPtr cfg}
    (hlink : Link memory next piece) :
    (memory.taskList next).myPtr = creates next ∧
      (memory.taskList piece).splittedPtr ≠ none := by
  have hused := (hrep.splits_lt _ hlink.cut).2
  have hnext := hrep.myPtr next hused
  refine ⟨hnext, ?_⟩
  rw [hlink.splittedPtr, hnext]
  exact hcreates next hused

/-- Every split makes a new tail. -/
theorem Represents.body_eq (hrep : Represents creates table P stack memory plan)
    {body other tail : TaskPtr cfg} (hsplit : (body, tail) ∈ memory.splits)
    (hother : (other, tail) ∈ memory.splits) : body = other := by
  have hnodup : (memory.splits.map fun split => split.2.val).Nodup := by
    rw [hrep.tails, List.nodup_reverse]
    exact List.nodup_range' ..
  have hpair := List.inj_on_of_nodup_map hnodup hsplit hother rfl
  exact (Prod.mk.inj hpair).1

/-- Only the body a tail was cut off points to it. -/
theorem Chains.body_unique
    (hrep : Represents creates table P stack memory plan)
    (hchains : Chains table P memory plan chain)
    (hdistinct : DistinctHandles creates)
    (hcreates : ∀ call < memory.currIdx, creates call ≠ none)
    {next piece : TaskPtr cfg} (hlink : Link memory next piece) :
    ∃! body, (memory.taskList body).splittedPtr =
      (memory.taskList next).myPtr := by
  obtain ⟨hnext, hpointer⟩ := hlink.handle hrep hcreates
  refine ⟨piece, hlink.splittedPtr, fun body hbody => ?_⟩
  obtain ⟨other, hother⟩ := hchains.linked body (by
    rw [hbody, ← hlink.splittedPtr]
    exact hpointer)
  obtain ⟨handle, hhandle⟩ := Option.ne_none_iff_exists'.mp
    (hcreates next (hrep.splits_lt _ hlink.cut).2)
  have hsame : creates other = some handle := by
    rw [← (hother.handle hrep hcreates).1, ← hother.splittedPtr, hbody, hnext,
      hhandle]
  -- both splits made the same tail
  obtain rfl : other = next := Fin.ext (hdistinct _ _ _ hsame hhandle)
  exact hrep.body_eq hother.cut hlink.cut

/-- A split leaves its body linked to its tail. -/
theorem Chains.link_of_split
    (hrep : Represents creates table P stack memory plan)
    (hchains : Chains table P memory plan chain) {body tail : TaskPtr cfg}
    (hsplit : (body, tail) ∈ memory.splits) (hbody : body ∈ chain index) :
    Link memory tail body := by
  have hchain := hchains.each index
  have htail : tail ∈ (chain index).dropLast := by
    apply List.mem_dropLast_of_mem_of_ne_getLast?
      (hchains.inside _ hsplit index hbody)
    rw [hchain.first]
    intro heq
    have hmem := List.mem_map_of_mem hsplit (f := fun split => split.2.val)
    rw [hrep.tails, List.mem_reverse, List.mem_range'_1,
      Option.some.inj heq] at hmem
    exact hmem.1.not_gt index.isLt
  obtain ⟨piece, hlink⟩ := exists_succ_of_isChain hchain.linked htail
  rwa [hrep.body_eq hlink.cut hsplit] at hlink

/-- The chain of a task is well formed, with subnumbers counted modulo 256. -/
theorem ChainState.splitChain
    (hstate : ChainState creates table state plan chain)
    (hdistinct : DistinctHandles creates)
    (hcreates : ∀ call < state.memory.currIdx, creates call ≠ none)
    (index : Fin cfg.numOfTask) :
    SplitChain (fun place => (place + 1) % 2 ^ 8) table state index
      (chain index).reverse := by
  have hrep := hstate.head.represents
  have hchains := hstate.chains
  have hchain := hchains.each index
  have hplace : ∀ {slot}, slot ∈ chain index →
      (slot ∈ state.uq.entries ∧
          (state.memory.taskList slot).splittedPtr = none) ∨
        ∃! core, (slot, core) ∈ state.memory.assigned := fun hslot =>
    hrep.waiting_or_assigned ((hchains.member index _).mp hslot)
  constructor
  · intro slot
    rw [List.mem_reverse]
    exact hchains.mem_iff_pieceOf slot
  · exact List.nodup_reverse.mpr hchain.nodup
  · rw [List.head?_reverse]
    exact hchain.first
  · rw [List.isChain_reverse]
    exact hchain.linked.imp fun _ _ hlink =>
      ⟨hlink.splittedPtr, (hlink.handle hrep hcreates).2⟩
  · rw [List.getLast?_reverse]
    exact hchain.open_end
  · refine number_of_isChain ?_ ?_
    · rw [List.isChain_reverse]
      exact hchain.linked.imp fun _ _ hlink => hlink.subnum
    · intro first hfirst
      rw [List.head?_reverse, hchain.first] at hfirst
      rw [← Option.some.inj hfirst]
      exact hchain.number
  · intro piece hpiece
    rw [List.tail_reverse, List.mem_reverse] at hpiece
    obtain ⟨previous, hlink⟩ := exists_succ_of_isChain hchain.linked hpiece
    exact ⟨hlink.dependency,
      hchains.body_unique hrep hdistinct hcreates hlink⟩
  · intro piece hpiece
    rw [List.dropLast_reverse, List.mem_reverse] at hpiece
    obtain ⟨next, hlink⟩ := exists_pred_of_isChain hchain.linked hpiece
    refine (hplace (List.mem_of_mem_tail hpiece)).resolve_left ?_
    exact fun hwaiting => (hlink.handle hrep hcreates).2 hwaiting.2
  · intro piece hpiece
    rw [List.getLast?_reverse] at hpiece
    exact (hplace (List.mem_of_mem_head? hpiece)).imp_left And.left
  · intro piece hpiece other hother core hcore hcore'
    rw [List.mem_reverse] at hpiece hother
    exact hchains.apart hrep hstate.head.reaches hpiece hother hcore hcore'
  · intro piece hpiece
    exact (hchains.origin hrep (List.mem_reverse.mp hpiece)).1
  · intro piece hpiece
    exact (hchains.origin hrep (List.mem_reverse.mp hpiece)).2.1
  · intro piece hpiece
    exact (hchains.origin hrep (List.mem_reverse.mp hpiece)).2.2
  · rw [List.map_reverse, List.sum_reverse, hchain.utilization, load_original]
  · rw [List.map_reverse, List.sum_reverse, hchain.runtime]

/-- What a split assigns to the two runtimes fits. -/
theorem ChainState.conversionsFit
    (hstate : ChainState creates table state plan chain)
    (hguard : (normalAssign creates).guard state = true)
    (hbody : normalAssignBody creates state = .ok (.next after)) :
    ConversionsFit state.memory after.memory := by
  obtain ⟨core, plan', htarget, hplaces, _⟩ := hstate.head.next hguard hbody
  have hopen := htarget.open_core
  have hrep := hstate.head.represents
  have hchains := hstate.chains
  intro task tail hsplits
  generalize huq : after.uq = uq at hplaces
  generalize hmemory : after.memory = memory at hplaces hsplits
  cases hplaces with
  | fit hentries hfit =>
      rw [splits_assignTask] at hsplits
      exact absurd hsplits (List.cons_ne_self _ _).symm
  | @split body rest placed piece pieces room hentries hslot hroom hover =>
      rw [splits_assignTask, splits_splitMemory] at hsplits
      obtain ⟨hpair, _⟩ := List.cons.inj hsplits
      obtain ⟨rfl, rfl⟩ := Prod.mk.inj hpair
      obtain ⟨top, _, piece', _, hentries', hqueue, htask, _⟩ :=
        hrep.top (List.cons_ne_nil _ _)
      obtain ⟨rfl, _⟩ := List.cons.inj hqueue
      obtain ⟨rfl, _⟩ := List.cons.inj (hentries.symm.trans hentries')
      have hmem : ∃ index, body ∈ chain index := by
        obtain ⟨index, hindex, _⟩ :=
          (hrep.waiting body piece (List.mem_cons_self ..) htask).1.origin
        obtain ⟨rest, hchain⟩ := hchains.next_eq htask hindex
        exact ⟨index, hchain ▸ List.mem_cons_self ..⟩
      obtain ⟨index, hmem⟩ := hmem
      have hless := (hchains.each index).runtime_lt hmem
      have hticks : room * (state.memory.taskList body).period ≤
          (state.memory.taskList body).runtime := by
        refine le_trans ?_
          (hchains.runtime_ge piece (List.mem_cons_self ..) body htask)
        exact mul_le_mul_of_nonneg_right (by linarith) (Nat.cast_nonneg _)
      obtain ⟨hfloor, hle, _⟩ := runtime_split hticks hless
      rw [taskList_assignTask, taskList_splitMemory_body]
      simp only [bodyInfo]
      change (0 ≤ room * ((state.memory.taskList body).period : ℚ) ∧ _) ∧
        0 ≤ ((state.memory.taskList body).runtime : ℚ) -
          toUint16 (room * (state.memory.taskList body).period) ∧ _
      rw [hfloor]
      have hcast : ((⌊room * (state.memory.taskList body).period⌋₊ : ℕ) : ℚ) ≤
          (state.memory.taskList body).runtime := Nat.cast_le.mpr hle
      refine ⟨⟨mul_nonneg (by linarith) (Nat.cast_nonneg _), hticks⟩, ?_, ?_⟩
      · linarith
      · exact sub_le_self _ (Nat.cast_nonneg _)

end Chain

/-- Every run of the SPA2 branch keeps the chains well formed, with
subnumbers counted modulo 256 as their type does. -/
theorem chainsWellFormed (hdistinct : DistinctHandles creates)
    (hcreates : ∀ call, creates call ≠ none) :
    ChainsWellFormed (fun place => (place + 1) % 2 ^ 8) creates table := by
  intro state hhead
  obtain ⟨plan, chain, hstate⟩ := spa2Head_chains hhead
  constructor
  · exact fun index => ⟨_, hstate.splitChain hdistinct
      (fun call _ => hcreates call) index⟩
  · exact fun after hguard hbody => hstate.conversionsFit hguard hbody

theorem mainTable_chainsWellFormed :
    ChainsWellFormed (fun place => (place + 1) % 2 ^ 8) some mainTable := by
  apply chainsWellFormed
  · intro first second handle hfirst hsecond
    exact (Option.some.inj hfirst).trans (Option.some.inj hsecond).symm
  · exact fun _ => nofun

/-! ## A chain of 256 pieces -/

/-- Two tasks on 257 cores: the second gets a core of its own, the first fills
all the others. -/
def wideConfig : Config := .checked 2 257 1 (by norm_num)

def wideTable : TaskTable wideConfig :=
  TaskTable.ofRows wideConfig ![.mk 256 1 2, .mk 257 1 1]

/-- While the rest of the only task waits, an ordinary core is full or empty. -/
theorem load_eq_zero_of_open {κ : Type*} [DecidableEq κ] {P : Problem κ}
    {plan : Plan κ} (hreach : P.Reaches plan) {p : Piece}
    (hp : p ∈ plan.queue) (honly : ∀ q ∈ P.pieces, q.task = p.task) {core : κ}
    (hcore : core ∈ P.normal) (hopen : P.load plan core < P.bound) :
    P.load plan core = 0 := by
  rw [P.load_of_mem_normal plan hcore]
  apply List.sum_eq_zero
  intro load hload
  obtain ⟨x, hx, rfl⟩ := List.mem_map.mp hload
  refine if_neg fun heq => ?_
  obtain ⟨q, hq, hqtask⟩ := hreach.placed_task x hx
  have hbody : x.body = true :=
    (hreach.behind x hx p hp).2 ((honly q hq).symm.trans hqtask)
  exact hopen.ne (heq ▸ hreach.body_full x hx hbody)

/-- The ordinary cores have room for what still waits. -/
theorem exists_open_of_total {κ : Type*} [DecidableEq κ] {P : Problem κ}
    {plan : Plan κ} (hreach : P.Reaches plan)
    (hless : taskLoad (fun _ => True) P.pieces <
      P.normal.card * P.bound + taskLoad (fun _ => True) plan.queue) :
    ¬∀ core ∈ P.normal, P.bound ≤ P.load plan core := by
  intro hfull
  have hplaced : (P.normal.card : ℚ) * P.bound ≤
      taskLoad (fun _ => True) (plan.placed.map Placement.piece) := by
    calc
      (P.normal.card : ℚ) * P.bound = ∑ _core ∈ P.normal, P.bound := by simp
      _ ≤ ∑ core ∈ P.normal, coreLoad plan.placed core := by
          apply Finset.sum_le_sum
          intro core hcore
          rw [← P.load_of_mem_normal plan hcore]
          exact hfull core hcore
      _ ≤ taskLoad (fun _ => True) (plan.placed.map Placement.piece) :=
          sum_coreLoad_le_taskLoad _ hreach.nonneg.2 fun _ _ _ => trivial
  have htotal := hreach.taskLoad_eq fun _ => True
  linarith

theorem wide_pieces : (spa2Problem wideTable).pieces = [⟨0, 0, 256⟩] := by
  decide +kernel

theorem wide_card : ((spa2Problem wideTable).normal.card : ℚ) = 256 := by
  have hcount : preCount wideTable wideConfig.numOfTask = 1 := by
    decide +kernel
  have hcard := card_free wideTable
  rw [hcount] at hcard
  exact hcard.trans (by norm_num [wideConfig, Config.checked])

/-- A head after `count` splits of the first task: its rest waits. -/
structure WideHead (count : ℕ) (state : State wideConfig) : Prop where
  head : Spa2Head some wideTable state
  waiting : ∃ task, state.uq.entries = [task] ∧
    (state.memory.taskList task).utilization = 256 - count ∧
      (state.memory.taskList task).subnum = (count + 1) % 2 ^ 8
  currIdx : state.memory.currIdx = count + 2

theorem wideHead_start : ∃ state, WideHead 0 state := by
  obtain ⟨ready, start, hsetup, hpre, hstart⟩ := preAssign_spec some wideTable
  have hhead : Spa2Head some wideTable start :=
    ⟨ready, start, hsetup, hpre, .start⟩
  have hentries : start.uq.entries.map Fin.val = [0] := by
    have hpieces : (prepare wideTable wideConfig.numOfTask).waiting =
        [⟨0, 0, 256⟩] := wide_pieces
    rw [hstart.uq, hpieces]
    rfl
  obtain ⟨task, hentries, hval⟩ := List.map_eq_singleton_iff.mp hentries
  refine ⟨start, hhead, ⟨task, hentries, ?_, ?_⟩, hstart.currIdx⟩
  · rw [hstart.taskList, initialInfo, hval, if_pos (by decide)]
    have hload : load wideTable 0 = 256 := by decide +kernel
    exact hload.trans (by norm_num)
  · rw [hstart.taskList, initialInfo, hval, if_pos (by decide)]
    exact wideTable.subnum_eq task

theorem WideHead.next {count : ℕ} {state : State wideConfig}
    (hwide : WideHead count state) (hcount : count < 255) :
    ∃ after, WideHead (count + 1) after := by
  obtain ⟨plan, hplan⟩ := spa2Head_state hwide.head
  obtain ⟨task, hentries, hload, hnumber⟩ := hwide.waiting
  have hrep := hplan.represents
  have hreach := hplan.reaches
  have hguard : (normalAssign some).guard state = true := by
    have hempty : state.uq.isEmpty = false := by
      rw [Stack.isEmpty_eq_false_iff, hentries]
      exact List.cons_ne_nil _ _
    simp [normalAssign, hempty]
  have hless : (count : ℚ) + 1 < 256 := by exact_mod_cast by omega
  obtain ⟨placed, queue⟩ := plan
  -- the queue is the one piece on the stack
  have hqueue := hrep.queue
  rw [hentries, List.map_singleton, eq_comm, List.map_eq_singleton_iff] at hqueue
  obtain ⟨piece, rfl, hpiece⟩ := hqueue
  have hcarries := (hrep.waiting task piece (List.mem_cons_self ..)
    hpiece.symm).1
  have hrest : piece.load = 256 - count := hcarries.utilization.symm.trans hload
  have hbound : (spa2Problem wideTable).bound = 1 := rfl
  have hopen : ¬∀ core ∈ (spa2Problem wideTable).normal,
      (spa2Problem wideTable).bound ≤
        (spa2Problem wideTable).load ⟨placed, [piece]⟩ core := by
    apply exists_open_of_total hreach
    rw [wide_pieces, wide_card, hbound]
    simp only [taskLoad_cons, taskLoad_nil, if_true, hrest]
    linarith
  have hiteration := hplan.iteration hguard
  generalize hbody : normalAssignBody some state = result at hiteration
  cases hiteration with
  | noCore hnormal =>
      have hcard := wide_card
      rw [hnormal] at hcard
      norm_num at hcard
  | noReserve _ hfull _ => exact absurd hfull hopen
  | exhausted _ hfull _ _ _ _ => exact absurd hfull hopen
  | noSlot _ _ _ hslot =>
      have hmax : wideConfig.maxNumTasks = 258 := rfl
      have hcurrIdx := hwide.currIdx
      omega
  | @places core after plan' htarget hplaces hafter =>
      have hhead := Spa2Head.next hwide.head hguard hbody
      have hzero : (spa2Problem wideTable).load ⟨placed, [piece]⟩ core = 0 := by
        cases htarget with
        | reserve hfull _ _ => exact absurd hfull hopen
        | normal hmem hroom _ =>
            refine load_eq_zero_of_open hreach (List.mem_cons_self ..) ?_
              hmem hroom
            obtain ⟨q, hq, htask⟩ :=
              hreach.queue_task piece (List.mem_cons_self ..)
            intro r hr
            rw [wide_pieces, List.mem_singleton] at hq hr
            rw [← htask, hq, hr]
      suffices hrest : (∃ tail, after.uq.entries = [tail] ∧
          (after.memory.taskList tail).utilization = 256 - (count + 1 : ℕ) ∧
            (after.memory.taskList tail).subnum = (count + 1 + 1) % 2 ^ 8) ∧
          after.memory.currIdx = count + 1 + 2 from
        ⟨after, hhead, hrest.1, hrest.2⟩
      generalize after.uq = uq at hplaces ⊢
      generalize after.memory = memory at hplaces ⊢
      cases hplaces with
      | fit _ hfit =>
          rw [hzero, hbound] at hfit
          linarith
      | @split body rest _ _ _ room hentries' hslot hroom _ =>
          obtain ⟨rfl, rfl⟩ := List.cons.inj (hentries.symm.trans hentries')
          have hslot' : (⟨state.memory.currIdx, hslot⟩ : TaskPtr wideConfig) ≠
              task := by
            have hused := hrep.slot_lt.1 piece (List.mem_cons_self ..)
            exact fun heq => (hpiece ▸ hused).ne (congrArg Fin.val heq).symm
          rw [hzero, hbound, sub_zero] at hroom
          refine ⟨⟨⟨state.memory.currIdx, hslot⟩, ?_, ?_, ?_⟩, ?_⟩
          · rw [Stack.entries_push _ (room_of_entries hentries),
              entries_pop, hentries]
            rfl
          · rw [taskList_assignTask,
              taskList_splitMemory_tail _ _ _ _ _ _ hslot']
            change (state.memory.taskList task).utilization - room = _
            rw [hload, hroom]
            push_cast
            ring
          · rw [taskList_assignTask,
              taskList_splitMemory_tail _ _ _ _ _ _ hslot']
            change ((state.memory.taskList task).subnum + 1) % 2 ^ 8 = _
            rw [hnumber, Nat.mod_add_mod]
          · rw [currIdx_assignTask, currIdx_splitMemory]
            exact congrArg (· + 1) hwide.currIdx

theorem exists_wideHead (count : ℕ) (hcount : count ≤ 255) :
    ∃ state, WideHead count state := by
  induction count with
  | zero => exact wideHead_start
  | succ count ih =>
      obtain ⟨state, hwide⟩ := ih (Nat.le_of_succ_le hcount)
      exact hwide.next hcount

/-- After 255 splits the rest of the first task is its piece number 256, and
its subnumber is 0. -/
theorem wideTable_not_chainsWellFormed :
    ¬ChainsWellFormed (fun place => place + 1) some wideTable := by
  intro hwell
  obtain ⟨state, hwide⟩ := exists_wideHead 255 le_rfl
  obtain ⟨task, hentries, _, hnumber⟩ := hwide.waiting
  obtain ⟨plan, chain, hstate⟩ := spa2Head_chains hwide.head
  have hrep := hstate.head.represents
  have hqueue := hrep.queue
  rw [hentries, List.map_singleton, eq_comm, List.map_eq_singleton_iff] at hqueue
  obtain ⟨piece, hqueue, hpiece⟩ := hqueue
  have hmem : piece ∈ plan.queue := hqueue ▸ List.mem_cons_self ..
  obtain ⟨index, hindex, _⟩ := (hrep.waiting task piece hmem hpiece.symm).1.origin
  have hchain : task ∈ chain index := List.mem_of_mem_head?
    (hstate.chains.front piece hmem task hpiece.symm index hindex)
  obtain ⟨pieces, hpieces⟩ := (hwell state hwide.head).1 index
  have htask : task ∈ pieces :=
    (hpieces.members task).mpr ((hstate.chains.mem_iff_pieceOf task).mp hchain)
  obtain ⟨place, hplace⟩ := List.mem_iff_getElem?.mp htask
  have hcount := hpieces.subnum place task hplace
  rw [hnumber] at hcount
  omega

end PicoSched.Refinement
