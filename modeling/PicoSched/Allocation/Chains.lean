import PicoSched.Allocation.Bodies
import PicoSched.Allocation.Registration
import PicoSched.Allocation.Runs

/-!
# The chains of split tasks

Every split appends one piece to the chain of its task: the body points to the
new tail, and the tail takes over what the body cannot execute.  The integer
runtimes are split exactly, because a waiting piece never has less of it than
its utilization asks for.
-/

namespace PicoSched.Filling.Problem

variable {κ : Type*} [DecidableEq κ] {P : Problem κ}

/-- Placed pieces come from the pieces of the problem. -/
theorem Reaches.placed_task {plan : Plan κ} (hreach : P.Reaches plan) :
    ∀ x ∈ plan.placed, ∃ q ∈ P.pieces, q.task = x.piece.task := by
  induction hreach using Reaches.induct with
  | start => simp
  | step before after core hreach ih htarget hplaces =>
      have hqueue := hreach.queue_task
      cases hplaces with
      | fit _ =>
          exact List.forall_mem_cons.mpr ⟨hqueue _ (List.mem_cons_self ..), ih⟩
      | @split _ piece _ _ _ =>
          exact List.forall_mem_cons.mpr
            ⟨hqueue piece (List.mem_cons_self ..), ih⟩

/-- No core has two pieces of one task. -/
theorem Reaches.cores_apart {plan : Plan κ} (hreach : P.Reaches plan) :
    (plan.placed ++ P.given).Pairwise fun x y =>
      x.piece.task = y.piece.task → x.core ≠ y.core := by
  rw [List.pairwise_append]
  refine ⟨?_, ?_, ?_⟩
  · apply hreach.on_top.imp
    intro x y htop htask hcore
    exact absurd htask (htop hcore).2.ne
  · apply P.given_single.imp
    exact fun hsingle _ => hsingle
  · intro x hx y hy htask
    obtain ⟨q, hq, hqtask⟩ := hreach.placed_task x hx
    exact absurd (htask.symm.trans hqtask.symm) (P.given_apart y hy q hq)

end PicoSched.Filling.Problem

namespace PicoSched.Refinement

open Filling TaskManager PreAssign

variable {cfg : Config} {creates : ℕ → Option TaskHandle}
  {table : TaskTable cfg} {memory after : Memory cfg} {task tail : TaskPtr cfg}
  {index : Fin cfg.numOfTask} {chain : List (TaskPtr cfg)}

/-! ## Runtimes -/

/-- The two assignments of a split whose body can execute `ticks` ticks keep
the runtime. -/
theorem runtime_split {ticks : ℚ} {runtime : ℕ} (hle : ticks ≤ runtime)
    (hruntime : runtime < 2 ^ 16) :
    toUint16 ticks = ⌊ticks⌋₊ ∧ ⌊ticks⌋₊ ≤ runtime ∧
      toUint16 ((runtime : ℚ) - toUint16 ticks) = runtime - ⌊ticks⌋₊ := by
  have hfloor : ⌊ticks⌋₊ ≤ runtime := Nat.floor_le_of_le hle
  have hbody : toUint16 ticks = ⌊ticks⌋₊ :=
    Nat.mod_eq_of_lt (hfloor.trans_lt hruntime)
  refine ⟨hbody, hfloor, ?_⟩
  rw [hbody, ← Nat.cast_sub hfloor, toUint16, Nat.floor_natCast]
  exact Nat.mod_eq_of_lt ((Nat.sub_le _ _).trans_lt hruntime)

/-! ## One chain -/

/-- `next` was cut off `piece`, and `piece` points to it. -/
structure Link (memory : Memory cfg) (next piece : TaskPtr cfg) : Prop where
  cut : (piece, next) ∈ memory.splits
  splittedPtr : (memory.taskList piece).splittedPtr =
    (memory.taskList next).myPtr
  dependency : (memory.taskList next).dependency = true
  subnum : (memory.taskList next).subnum =
    ((memory.taskList piece).subnum + 1) % 2 ^ 8
  runtime : (memory.taskList piece).runtime =
    ⌊(memory.taskList piece).utilization * (memory.taskList piece).period⌋₊

/-- The pieces of a task, the latest first. -/
structure TaskChain (table : TaskTable cfg) (memory : Memory cfg)
    (index : Fin cfg.numOfTask) (chain : List (TaskPtr cfg)) : Prop where
  nodup : chain.Nodup
  first : chain.getLast? = some (cfg.original index)
  number : (memory.taskList (cfg.original index)).subnum = 1
  linked : chain.IsChain (Link memory)
  open_end : ∀ slot ∈ chain.head?, (memory.taskList slot).splittedPtr = none
  utilization : (chain.map fun slot =>
    (memory.taskList slot).utilization).sum = load table index
  runtime : (chain.map fun slot => (memory.taskList slot).runtime).sum =
    (table.task index).runtime

theorem Link.frame {next piece : TaskPtr cfg} (hlink : Link memory next piece)
    (hsplits : memory.splits ⊆ after.splits)
    (hnext : (after.taskList next).myPtr = (memory.taskList next).myPtr ∧
      (after.taskList next).dependency = (memory.taskList next).dependency ∧
      (after.taskList next).subnum = (memory.taskList next).subnum)
    (hpiece : after.taskList piece = memory.taskList piece) :
    Link after next piece where
  cut := hsplits hlink.cut
  splittedPtr := by rw [hpiece, hnext.1, hlink.splittedPtr]
  dependency := hnext.2.1.trans hlink.dependency
  subnum := by rw [hpiece, hnext.2.2, hlink.subnum]
  runtime := by rw [hpiece, hlink.runtime]

theorem TaskChain.original_mem (hchain : TaskChain table memory index chain) :
    cfg.original index ∈ chain :=
  List.mem_of_getLast? hchain.first

/-- A step that leaves the records of the chain alone. -/
theorem TaskChain.frame (hchain : TaskChain table memory index chain)
    (hsplits : memory.splits ⊆ after.splits)
    (hsame : ∀ slot ∈ chain, after.taskList slot = memory.taskList slot) :
    TaskChain table after index chain where
  nodup := hchain.nodup
  first := hchain.first
  number := by rw [hsame _ hchain.original_mem, hchain.number]
  linked := by
    apply hchain.linked.imp_of_mem_imp
    intro next piece hnext hpiece hlink
    refine hlink.frame hsplits ?_ (hsame piece hpiece)
    rw [hsame next hnext]
    exact ⟨rfl, rfl, rfl⟩
  open_end := by
    intro slot hslot
    rw [hsame slot (List.mem_of_mem_head? hslot)]
    exact hchain.open_end slot hslot
  utilization := by
    rw [← hchain.utilization]
    refine congrArg List.sum (List.map_congr_left fun slot hslot => ?_)
    rw [hsame slot hslot]
  runtime := by
    rw [← hchain.runtime]
    refine congrArg List.sum (List.map_congr_left fun slot hslot => ?_)
    rw [hsame slot hslot]

/-- No piece has more ticks than its task. -/
theorem TaskChain.runtime_lt (hchain : TaskChain table memory index chain)
    {slot : TaskPtr cfg} (hslot : slot ∈ chain) :
    (memory.taskList slot).runtime < 2 ^ 16 := by
  have hle : (memory.taskList slot).runtime ≤
      (chain.map fun slot => (memory.taskList slot).runtime).sum :=
    List.single_le_sum (fun _ _ => Nat.zero_le _) _
      (List.mem_map_of_mem (f := fun slot => (memory.taskList slot).runtime)
        hslot)
  rw [hchain.runtime] at hle
  exact hle.trans_lt (table.runtime_lt _)

/-- The records of a piece that is split and of its tail. -/
structure SplitRecords (room : ℚ) (memory after : Memory cfg)
    (task tail : TaskPtr cfg) (handle : Option TaskHandle) (slot : TaskInfo) :
    Prop where
  bodyRecord : after.taskList task = bodyInfo room (after.taskList tail).myPtr
    (memory.taskList task)
  tailRecord : after.taskList tail = tailInfo room handle (memory.taskList task) slot
  splits : after.splits = (task, tail) :: memory.splits
  fresh : slot.splittedPtr = none
  others : ∀ other, other ≠ task → other ≠ tail →
    after.taskList other = memory.taskList other

section Split

variable {room : ℚ} {handle : Option TaskHandle} {slot : TaskInfo}
  {rest : List (TaskPtr cfg)}

theorem SplitRecords.link
    (hrecords : SplitRecords room memory after task tail handle slot)
    (hruntime : toUint16 (room * (memory.taskList task).period) =
      ⌊room * (memory.taskList task).period⌋₊) : Link after tail task where
  cut := by rw [hrecords.splits]; exact List.mem_cons_self ..
  splittedPtr := by rw [hrecords.bodyRecord]; rfl
  dependency := by rw [hrecords.tailRecord]; rfl
  subnum := by rw [hrecords.tailRecord, hrecords.bodyRecord]; rfl
  runtime := by rw [hrecords.bodyRecord]; exact hruntime

/-- The latest piece of the chain is split. -/
theorem TaskChain.split (hchain : TaskChain table memory index (task :: rest))
    (hrecords : SplitRecords room memory after task tail handle slot)
    (htail : tail ∉ task :: rest)
    (hticks : room * (memory.taskList task).period ≤
      (memory.taskList task).runtime) :
    TaskChain table after index (tail :: task :: rest) := by
  have hless := hchain.runtime_lt (List.mem_cons_self ..)
  obtain ⟨hbody, hfloor, hrest⟩ := runtime_split hticks hless
  have hnodup := List.nodup_cons.mp hchain.nodup
  have hsame : ∀ other ∈ rest, after.taskList other = memory.taskList other := by
    intro other hother
    refine hrecords.others other ?_ ?_
    · exact fun heq => hnodup.1 (heq ▸ hother)
    · exact fun heq => htail (heq ▸ List.mem_cons_of_mem _ hother)
  have hsplits : memory.splits ⊆ after.splits := by
    rw [hrecords.splits]
    exact List.subset_cons_self _ _
  constructor
  · exact List.nodup_cons.mpr ⟨htail, hchain.nodup⟩
  · rw [List.getLast?_cons_cons]
    exact hchain.first
  · have hnumber := hchain.number
    have hmem := hchain.original_mem
    rcases List.mem_cons.mp hmem with heq | hold
    · rw [heq, hrecords.bodyRecord]
      rw [heq] at hnumber
      exact hnumber
    · rw [hsame _ hold]
      exact hnumber
  · obtain ⟨hhead, hlinked⟩ := List.isChain_cons.mp hchain.linked
    refine List.isChain_cons_cons.mpr ⟨hrecords.link hbody, ?_⟩
    refine List.isChain_cons.mpr ⟨fun piece hpiece => ?_, ?_⟩
    · refine (hhead piece hpiece).frame hsplits ?_
        (hsame piece (List.mem_of_mem_head? hpiece))
      rw [hrecords.bodyRecord]
      exact ⟨rfl, rfl, rfl⟩
    · apply hlinked.imp_of_mem_imp
      intro next piece hnext hpiece hlink
      refine hlink.frame hsplits ?_ (hsame piece hpiece)
      rw [hsame next hnext]
      exact ⟨rfl, rfl, rfl⟩
  · intro other hother
    obtain rfl : tail = other := Option.some.inj hother
    rw [hrecords.tailRecord]
    exact hrecords.fresh
  · have hsum := hchain.utilization
    simp only [List.map_cons, List.sum_cons] at hsum ⊢
    rw [hrecords.tailRecord, hrecords.bodyRecord,
      List.map_congr_left fun other hother =>
        congrArg TaskInfo.utilization (hsame other hother)]
    rw [← hsum]
    simp only [tailInfo, bodyInfo]
    ring
  · have hsum := hchain.runtime
    simp only [List.map_cons, List.sum_cons] at hsum ⊢
    rw [hrecords.tailRecord, hrecords.bodyRecord,
      List.map_congr_left fun other hother =>
        congrArg TaskInfo.runtime (hsame other hother)]
    rw [← hsum]
    simp only [tailInfo, bodyInfo]
    rw [hrest, hbody, ← add_assoc, Nat.sub_add_cancel hfloor]

end Split

/-! ## The chains of all tasks -/

/-- The slots of the pieces, waiting or placed, with their tasks. -/
def slotTasks (P : Problem (CorePtr cfg)) (plan : Plan (CorePtr cfg)) :
    List (ℕ × ℕ) :=
  plan.queue.map (fun p => (p.slot, p.task)) ++
    (plan.placed ++ P.given).map fun x => (x.piece.slot, x.piece.task)

variable {P : Problem (CorePtr cfg)} {stack : TaskStack cfg}
  {plan plan' : Plan (CorePtr cfg)}

theorem map_slotTasks (P : Problem (CorePtr cfg)) (plan : Plan (CorePtr cfg)) :
    (slotTasks P plan).map Prod.fst = slotsInUse P plan := by
  rw [slotTasks, slotsInUse, List.map_append, List.map_map, List.map_map]
  rfl

/-- A slot in use belongs to one task. -/
theorem Represents.task_eq (hrep : Represents creates table P stack memory plan)
    {slot first second : ℕ} (hfirst : (slot, first) ∈ slotTasks P plan)
    (hsecond : (slot, second) ∈ slotTasks P plan) : first = second := by
  have hnodup := hrep.nodup
  rw [← map_slotTasks] at hnodup
  have heq := List.inj_on_of_nodup_map hnodup hfirst hsecond rfl
  exact (Prod.mk.inj heq).2

theorem Represents.slot_lt_of_mem
    (hrep : Represents creates table P stack memory plan) {slot task : ℕ}
    (hmem : (slot, task) ∈ slotTasks P plan) : slot < memory.currIdx := by
  have hslot := List.mem_map_of_mem hmem (f := Prod.fst)
  rw [map_slotTasks] at hslot
  exact List.mem_range.mp (hrep.slots_perm.mem_iff.mp hslot)

/-- Every task has its chain, and the waiting pieces are at the ends. -/
structure Chains (table : TaskTable cfg) (P : Problem (CorePtr cfg))
    (memory : Memory cfg) (plan : Plan (CorePtr cfg))
    (chain : Fin cfg.numOfTask → List (TaskPtr cfg)) : Prop where
  each : ∀ index, TaskChain table memory index (chain index)
  member : ∀ index (slot : TaskPtr cfg), slot ∈ chain index ↔
    (slot.val, index.val) ∈ slotTasks P plan
  front : ∀ p ∈ plan.queue, ∀ slot : TaskPtr cfg, slot.val = p.slot →
    ∀ index : Fin cfg.numOfTask, index.val = p.task →
      (chain index).head? = some slot
  linked : ∀ slot, (memory.taskList slot).splittedPtr ≠ none →
    ∃ next, Link memory next slot
  inside : ∀ split ∈ memory.splits, ∀ index,
    split.1 ∈ chain index → split.2 ∈ chain index
  runtime_ge : ∀ p ∈ plan.queue, ∀ slot : TaskPtr cfg, slot.val = p.slot →
    p.load * (memory.taskList slot).period ≤ (memory.taskList slot).runtime

/-- A piece that is placed whole. -/
theorem Chains.frame {chain : Fin cfg.numOfTask → List (TaskPtr cfg)}
    (hchains : Chains table P memory plan chain)
    (htaskList : after.taskList = memory.taskList)
    (hsplits : after.splits = memory.splits)
    (hslots : (slotTasks P plan').Perm (slotTasks P plan))
    (hqueue : plan'.queue ⊆ plan.queue) :
    Chains table P after plan' chain where
  each index := (hchains.each index).frame (hsplits ▸ List.Subset.refl _)
    fun slot _ => congrFun htaskList slot
  member index slot := (hchains.member index slot).trans hslots.mem_iff.symm
  front p hp := hchains.front p (hqueue hp)
  linked slot hslot := by
    rw [htaskList] at hslot
    obtain ⟨next, hlink⟩ := hchains.linked slot hslot
    refine ⟨next, hlink.frame (hsplits ▸ List.Subset.refl _) ?_ ?_⟩
    · rw [htaskList]
      exact ⟨rfl, rfl, rfl⟩
    · rw [htaskList]
  inside := by
    rw [hsplits]
    exact hchains.inside
  runtime_ge p hp := by
    rw [htaskList]
    exact hchains.runtime_ge p (hqueue hp)

section Step

variable {chain : Fin cfg.numOfTask → List (TaskPtr cfg)}
  {placed : List (Placement (CorePtr cfg))} {piece : Piece}
  {pieces : List Piece} {rest : List (TaskPtr cfg)} {core : CorePtr cfg}
  {room : ℚ}

theorem Chains.fit
    (hchains : Chains table P memory ⟨placed, piece :: pieces⟩ chain) :
    Chains table P (assignTask task core memory)
      ⟨⟨piece, core, false⟩ :: placed, pieces⟩ chain := by
  refine hchains.frame (taskList_assignTask ..) (splits_assignTask ..) ?_ ?_
  · rw [slotTasks, slotTasks, List.cons_append, List.map_cons, List.map_cons]
    exact List.perm_middle
  · exact List.subset_cons_self _ _

/-- The records after an iteration that splits. -/
theorem splitRecords_splitMemory
    (hrep : Represents creates table P stack memory ⟨placed, piece :: pieces⟩)
    (htask : task.val = piece.slot) (hslot : memory.currIdx < cfg.maxNumTasks) :
    SplitRecords room memory
      (assignTask task core (splitMemory creates task ⟨memory.currIdx, hslot⟩
        core room { memory with currIdx := memory.currIdx + 1 }))
      task ⟨memory.currIdx, hslot⟩ (creates memory.created)
      (table.entry ⟨memory.currIdx, hslot⟩) := by
  have hne : (⟨memory.currIdx, hslot⟩ : TaskPtr cfg) ≠ task := by
    have hless := hrep.slot_lt.1 piece (List.mem_cons_self ..)
    exact fun heq => (htask ▸ hless).ne (congrArg Fin.val heq).symm
  have hunused := hrep.unused ⟨memory.currIdx, hslot⟩ le_rfl
  constructor
  · rw [taskList_assignTask, taskList_splitMemory_body,
      taskList_splitMemory_tail _ _ _ _ _ _ hne]
    rfl
  · rw [taskList_assignTask, taskList_splitMemory_tail _ _ _ _ _ _ hne,
      ← hunused]
  · rfl
  · exact table.splittedPtr_eq _
  · intro other hother htail
    rw [taskList_assignTask, taskList_splitMemory_of_ne _ _ _ _ _ _ hother htail]

theorem Chains.slot_lt (hrep : Represents creates table P stack memory plan)
    (hchains : Chains table P memory plan chain) {slot : TaskPtr cfg}
    (hslot : slot ∈ chain index) : slot.val < memory.currIdx :=
  hrep.slot_lt_of_mem ((hchains.member index slot).mp hslot)

/-- A slot is in the chain of one task. -/
theorem Chains.index_eq (hrep : Represents creates table P stack memory plan)
    (hchains : Chains table P memory plan chain) {slot : TaskPtr cfg}
    {other : Fin cfg.numOfTask} (hslot : slot ∈ chain index)
    (hother : slot ∈ chain other) : other = index := by
  apply Fin.ext
  exact hrep.task_eq ((hchains.member other slot).mp hother)
    ((hchains.member index slot).mp hslot)

/-- The next piece is the latest of its chain. -/
theorem Chains.next_eq
    (hchains : Chains table P memory ⟨placed, piece :: pieces⟩ chain)
    (htask : task.val = piece.slot) (hindex : index.val = piece.task) :
    ∃ rest, chain index = task :: rest := by
  have hhead := hchains.front piece (List.mem_cons_self ..) task htask index
    hindex
  exact ⟨_, List.eq_cons_of_mem_head? hhead⟩

theorem slotTasks_split (slot : ℕ) :
    (slotTasks P ⟨⟨{ piece with load := room }, core, true⟩ :: placed,
      ⟨slot, piece.task, piece.load - room⟩ :: pieces⟩).Perm
        ((slot, piece.task) :: slotTasks P ⟨placed, piece :: pieces⟩) := by
  simp only [slotTasks, List.map_cons, List.cons_append]
  exact List.Perm.cons _ List.perm_middle

/-- Links survive a split: the body keeps what its predecessor relies on. -/
theorem SplitRecords.keep_link {handle : Option TaskHandle} {info : TaskInfo}
    (hrecords : SplitRecords room memory after task tail handle info)
    (hfresh : ∀ split ∈ memory.splits, split.1 ≠ tail ∧ split.2 ≠ tail)
    {next slot : TaskPtr cfg} (hlink : Link memory next slot)
    (hslot : slot ≠ task) : Link after next slot := by
  obtain ⟨htail, hnext⟩ := hfresh _ hlink.cut
  have hsplits : memory.splits ⊆ after.splits := by
    rw [hrecords.splits]
    exact List.subset_cons_self _ _
  refine hlink.frame hsplits ?_ (hrecords.others slot hslot htail)
  by_cases hbody : next = task
  · subst hbody
    rw [hrecords.bodyRecord]
    exact ⟨rfl, rfl, rfl⟩
  · rw [hrecords.others next hbody hnext]
    exact ⟨rfl, rfl, rfl⟩

/-- The slots of earlier splits are in use. -/
theorem Represents.splits_lt
    (hrep : Represents creates table P stack memory plan) :
    ∀ split ∈ memory.splits,
      split.1.val < memory.currIdx ∧ split.2.val < memory.currIdx := by
  intro split hsplit
  constructor
  · have hbody := List.mem_map_of_mem hsplit (f := fun split => split.1.val)
    rw [hrep.bodies] at hbody
    obtain ⟨x, hx, hslot⟩ := List.mem_map.mp hbody
    rw [← hslot]
    exact hrep.slot_lt.2 x
      (List.mem_append_left _ (List.mem_filter.mp hx).1)
  · have htail := List.mem_map_of_mem hsplit (f := fun split => split.2.val)
    rw [hrep.tails, List.mem_reverse, List.mem_range'_1] at htail
    have hge := hrep.currIdx_ge
    omega

/-- A piece that is split. -/
theorem Chains.split
    (hrep : Represents creates table P stack memory ⟨placed, piece :: pieces⟩)
    (hchains : Chains table P memory ⟨placed, piece :: pieces⟩ chain)
    (hdescending : (piece :: pieces).Pairwise fun p q => q.task < p.task)
    (htask : task.val = piece.slot) (hslot : memory.currIdx < cfg.maxNumTasks)
    (hindex : index.val = piece.task) (hpos : 0 ≤ room)
    (hroom : room ≤ piece.load) :
    Chains table P
      (assignTask task core (splitMemory creates task ⟨memory.currIdx, hslot⟩
        core room { memory with currIdx := memory.currIdx + 1 }))
      ⟨⟨{ piece with load := room }, core, true⟩ :: placed,
        ⟨memory.currIdx, piece.task, piece.load - room⟩ :: pieces⟩
      (Function.update chain index
        (⟨memory.currIdx, hslot⟩ :: chain index)) := by
  generalize hafter : assignTask task core (splitMemory creates task
    ⟨memory.currIdx, hslot⟩ core room
    { memory with currIdx := memory.currIdx + 1 }) = after
  have hrecords : SplitRecords room memory after task ⟨memory.currIdx, hslot⟩
      _ _ := hafter ▸ splitRecords_splitMemory hrep htask hslot
  clear hafter
  obtain ⟨rest, hchain⟩ := hchains.next_eq htask hindex
  have hmem : task ∈ chain index := hchain ▸ List.mem_cons_self ..
  have hticks : room * (memory.taskList task).period ≤
      (memory.taskList task).runtime :=
    (mul_le_mul_of_nonneg_right hroom (Nat.cast_nonneg _)).trans
      (hchains.runtime_ge piece (List.mem_cons_self ..) task htask)
  have hfresh : ∀ other, (⟨memory.currIdx, hslot⟩ : TaskPtr cfg) ∉
      chain other := by
    intro other hother
    exact absurd (hchains.slot_lt hrep hother) (lt_irrefl _)
  have hapart : ∀ other, other ≠ index → ∀ slot ∈ chain other, slot ≠ task := by
    rintro other hother slot hslot rfl
    exact hother (hchains.index_eq hrep hmem hslot)
  have hcut : ∀ split ∈ memory.splits,
      split.1 ≠ (⟨memory.currIdx, hslot⟩ : TaskPtr cfg) ∧
        split.2 ≠ (⟨memory.currIdx, hslot⟩ : TaskPtr cfg) := by
    intro split hsplit
    obtain ⟨hfirst, hsecond⟩ := hrep.splits_lt split hsplit
    exact ⟨fun heq => hfirst.ne (congrArg Fin.val heq),
      fun heq => hsecond.ne (congrArg Fin.val heq)⟩
  obtain ⟨hless, _⟩ := List.pairwise_cons.mp hdescending
  constructor
  · intro other
    by_cases hother : other = index
    · subst hother
      rw [Function.update_self, hchain]
      have heach := hchains.each other
      rw [hchain] at heach
      exact heach.split hrecords (hchain ▸ hfresh other) hticks
    · rw [Function.update_of_ne hother]
      refine (hchains.each other).frame ?_ fun slot hmem' => ?_
      · rw [hrecords.splits]
        exact List.subset_cons_self _ _
      · refine hrecords.others slot (hapart other hother slot hmem') ?_
        exact fun heq => hfresh other (heq ▸ hmem')
  · intro other slot
    rw [(slotTasks_split memory.currIdx).mem_iff, List.mem_cons,
      ← hchains.member other slot, Prod.mk.injEq, ← hindex]
    by_cases hother : other = index
    · subst hother
      rw [Function.update_self, List.mem_cons]
      simp [Fin.ext_iff]
    · rw [Function.update_of_ne hother]
      have hne : other.val ≠ index.val := fun heq => hother (Fin.ext heq)
      simp [hne]
  · intro p hp slot hval other hother
    rcases List.mem_cons.mp hp with rfl | hp
    · obtain rfl : other = index := Fin.ext (hother.trans hindex.symm)
      obtain rfl : slot = ⟨memory.currIdx, hslot⟩ := Fin.ext hval
      rw [Function.update_self]
      rfl
    · have hne : other ≠ index := by
        rintro rfl
        exact (hless p hp).ne (hother.symm.trans hindex)
      rw [Function.update_of_ne hne]
      exact hchains.front p (List.mem_cons_of_mem _ hp) slot hval other hother
  · intro slot hsplit
    by_cases hbody : slot = task
    · subst hbody
      have hless := (hchains.each index).runtime_lt hmem
      exact ⟨_, hrecords.link (runtime_split hticks hless).1⟩
    · by_cases htail : slot = ⟨memory.currIdx, hslot⟩
      · subst htail
        rw [hrecords.tailRecord] at hsplit
        exact absurd hrecords.fresh hsplit
      · rw [hrecords.others slot hbody htail] at hsplit
        obtain ⟨next, hlink⟩ := hchains.linked slot hsplit
        exact ⟨next, hrecords.keep_link hcut hlink hbody⟩
  · intro split hsplit other hmem'
    rw [hrecords.splits] at hsplit
    rcases List.mem_cons.mp hsplit with rfl | hold
    · by_cases hother : other = index
      · subst hother
        rw [Function.update_self]
        exact List.mem_cons_self ..
      · rw [Function.update_of_ne hother] at hmem'
        exact absurd rfl (hapart other hother task hmem')
    · by_cases hother : other = index
      · subst hother
        rw [Function.update_self] at hmem' ⊢
        have hin := (List.mem_cons.mp hmem').resolve_left (hcut split hold).1
        exact List.mem_cons_of_mem _ (hchains.inside split hold other hin)
      · rw [Function.update_of_ne hother] at hmem' ⊢
        exact hchains.inside split hold other hmem'
  · intro p hp slot hval
    rcases List.mem_cons.mp hp with rfl | hp
    · obtain rfl : slot = ⟨memory.currIdx, hslot⟩ := Fin.ext hval
      have hless := (hchains.each index).runtime_lt hmem
      obtain ⟨hbody, hfloor, hrest⟩ := runtime_split hticks hless
      have hge := hchains.runtime_ge piece (List.mem_cons_self ..) task htask
      have hdown : (⌊room * (memory.taskList task).period⌋₊ : ℚ) ≤
          room * (memory.taskList task).period :=
        Nat.floor_le (mul_nonneg hpos (Nat.cast_nonneg _))
      rw [hrecords.tailRecord]
      simp only [tailInfo]
      rw [hrest, Nat.cast_sub hfloor]
      linarith
    · have hused := hrep.slot_lt.1 p (List.mem_cons_of_mem _ hp)
      have hnodup := hrep.nodup
      rw [slotsInUse, List.map_cons, List.cons_append, List.nodup_cons] at hnodup
      have hne : slot ≠ task := by
        rintro rfl
        refine hnodup.1 (List.mem_append_left _ ?_)
        rw [← htask, hval]
        exact List.mem_map_of_mem hp
      have htail : slot ≠ ⟨memory.currIdx, hslot⟩ := by
        rintro rfl
        exact hused.ne hval.symm
      rw [hrecords.others slot hne htail]
      exact hchains.runtime_ge p (List.mem_cons_of_mem _ hp) slot hval

end Step

end PicoSched.Refinement
