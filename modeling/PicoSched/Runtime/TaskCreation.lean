import PicoSched.Allocation.FailedCreation
import PicoSched.Model.TaskCreation
import PicoSched.Runtime.Heap

/-!
# How many tasks the heap has room for

Nothing is given back while the tasks are created, so their stacks and TCBs
follow each other in the heap until one of them does not fit.  A creation that
fails leaves the heap as it was, and all later ones fail too.
-/

namespace PicoSched.Heap

open BlockList Kernel Main Refinement TaskManager

variable {layout : Layout} {state : State} {used : List (Block Use)}
  {rest sizeOfTcb count : ℕ} {memory : ℕ → BlockLink}

/-! ## A heap with one free block at its end -/

theorem firstFit_of_used (hused : ∀ block ∈ used, block.owner ≠ none)
    (wanted : ℕ) (back : List (Block Use)) :
    firstFit wanted (used ++ back) =
      (firstFit wanted back).map fun hit => (used ++ hit.1, hit.2) := by
  induction used with
  | nil => simp
  | cons block used ih =>
      obtain ⟨hblock, hblocks⟩ := List.forall_mem_cons.mp hused
      rw [List.cons_append, firstFit,
        if_neg fun h => hblock (Option.isNone_iff_eq_none.mp h.1), ih hblocks,
        Option.map_map]
      rfl

theorem firstFit_at_end (hused : ∀ block ∈ used, block.owner ≠ none)
    (wanted : ℕ) : firstFit wanted (used ++ [⟨rest, none⟩]) =
      if wanted ≤ rest then some (used, ⟨rest, none⟩, []) else none := by
  rw [firstFit_of_used hused, firstFit]
  by_cases hle : wanted ≤ rest
  · rw [if_pos ⟨rfl, hle⟩, if_pos hle, Option.map_some, List.append_nil]
  · rw [if_neg fun h => hle h.2, if_neg hle]
    rfl

theorem carve_at_end (used : List (Block Use)) {xWantedSize : ℕ}
    (hmore : heapMinimumBlockSize < rest - blockSize xWantedSize) :
    used ++ carve heapMinimumBlockSize (blockSize xWantedSize)
        (.allocated xWantedSize) ⟨rest, none⟩ =
      (used ++ [⟨blockSize xWantedSize, some (.allocated xWantedSize)⟩]) ++
        [⟨rest - blockSize xWantedSize, none⟩] := by
  rw [carve, if_pos hmore, List.append_assoc]
  rfl

theorem Represents.vPortFree {front back : List (Block Use)}
    {block : Block Use} {xWantedSize : ℕ}
    (hheap : Represents layout state (front ++ ([block] ++ back)))
    (howner : block.owner = some (.allocated xWantedSize)) :
    ∃ after, Heap.vPortFree layout
        (layout.uxStartAddress + BlockList.total front + xHeapStructSize) state =
          some after ∧
      Represents layout after
        (coalesce (front ++ ⟨block.size, none⟩ :: back)) := by
  obtain ⟨released, hrelease, hreleased⟩ := hheap.release rfl howner
  obtain ⟨after, hinsert, hafter⟩ := hreleased.insert rfl rfl
  refine ⟨after, ?_, hafter⟩
  rw [Heap.vPortFree, hrelease]
  exact hinsert

/-- What was got is given back at once. -/
theorem Represents.malloc_vPortFree {blocks : List (Block Use)}
    {xWantedSize : ℕ}
    {hit : List (Block Use) × Block Use × List (Block Use)}
    (hheap : Represents layout state blocks)
    (hhit : firstFit (blockSize xWantedSize) blocks = some hit)
    {got : State} (hgot : Represents layout got (allocated xWantedSize hit)) :
    ∃ after, Heap.vPortFree layout
        (layout.uxStartAddress + BlockList.total hit.1 + xHeapStructSize) got =
          some after ∧ Represents layout after blocks := by
  obtain ⟨front, ⟨size, owner⟩, back⟩ := hit
  obtain ⟨rfl, rfl, hle, -⟩ := firstFit_eq_some hhit
  have hcoalesced := coalesce_of_coalesced hheap.fitted.coalesced
  rw [allocated, carve] at hgot
  split at hgot
  · have hcut : Represents layout got (front ++
        ([⟨blockSize xWantedSize, some (.allocated xWantedSize)⟩] ++
          (⟨size - blockSize xWantedSize, none⟩ :: back))) := hgot
    obtain ⟨after, hcall, hafter⟩ := hcut.vPortFree rfl
    rw [coalesce_join front rfl rfl] at hafter
    dsimp only at hafter hle
    rw [Nat.add_sub_cancel' hle, hcoalesced] at hafter
    exact ⟨after, hcall, hafter⟩
  · obtain ⟨after, hcall, hafter⟩ := hgot.vPortFree rfl
    rw [hcoalesced] at hafter
    exact ⟨after, hcall, hafter⟩

theorem pointer_ne_zero (address : ℕ) : address + xHeapStructSize ≠ 0 :=
  Nat.succ_ne_zero _

/-! ## A creation -/

/-- The block for the TCB, after one was given away for the stack. -/
def tcbFit (stackBytes sizeOfTcb : ℕ) (blocks : List (Block Use)) :
    Option (List (Block Use) × Block Use × List (Block Use)) :=
  (firstFit (blockSize stackBytes) blocks).bind fun hit =>
    firstFit (blockSize sizeOfTcb) (allocated stackBytes hit)

/-- A task has its stack and its TCB, or the heap is as it was. -/
theorem Represents.prvCreateTask {blocks : List (Block Use)} {uxStackDepth : ℕ}
    (hheap : Represents layout state blocks)
    (hstack : 0 < blockSize (uxStackDepth * sizeOfStackType))
    (htcb : 0 < blockSize sizeOfTcb) :
    (∃ hit after, tcbFit (uxStackDepth * sizeOfStackType) sizeOfTcb blocks =
        some hit ∧
      Heap.prvCreateTask layout sizeOfTcb uxStackDepth state =
        some (some (layout.uxStartAddress + BlockList.total hit.1 +
          xHeapStructSize), after) ∧
      Represents layout after (allocated sizeOfTcb hit)) ∨
    tcbFit (uxStackDepth * sizeOfStackType) sizeOfTcb blocks = none ∧
      ∃ after, Heap.prvCreateTask layout sizeOfTcb uxStackDepth state =
          some (none, after) ∧ Represents layout after blocks := by
  rw [Heap.prvCreateTask, tcbFit]
  rcases hheap.pvPortMalloc (uxStackDepth * sizeOfStackType) with
    ⟨hit, stacked, -, hhit, hcall, hstacked⟩ | ⟨hnone, hcall⟩
  · rw [hcall, hhit, Option.bind_some, Option.bind_some]
    dsimp only
    rw [if_pos (pointer_ne_zero _)]
    rcases hstacked.pvPortMalloc sizeOfTcb with
      ⟨hit', after, -, hhit', hcall', hafter⟩ | ⟨hnone, hcall'⟩
    · rw [hcall', Option.bind_some]
      dsimp only
      rw [if_pos (pointer_ne_zero _)]
      exact .inl ⟨hit', after, hhit', rfl, hafter⟩
    · obtain ⟨after, hfree, hafter⟩ := hheap.malloc_vPortFree hhit hstacked
      rw [hcall', Option.bind_some]
      dsimp only
      rw [if_neg (not_not.mpr rfl), hfree]
      exact .inr ⟨hnone.resolve_left htcb.ne', after, rfl, hafter⟩
  · rw [hcall, hnone.resolve_left hstack.ne']
    exact .inr ⟨rfl, state, rfl, hheap⟩

/-! ## Creations -/

/-- The blocks of a task. -/
def taskSize (sizeOfTcb : ℕ) : ℕ :=
  blockSize (stackSize * sizeOfStackType) + blockSize sizeOfTcb

def Layout.heapSize (layout : Layout) : ℕ :=
  layout.uxEndAddress - layout.uxStartAddress

/-- The heap holds `count` tasks.  What is left is free, or it is too small to be
cut off. -/
structure Filled (layout : Layout) (sizeOfTcb : ℕ) (state : State)
    (count : ℕ) : Prop where
  le : count * taskSize sizeOfTcb ≤ layout.heapSize
  blocks : ∃ used, (∀ block ∈ used, block.owner ≠ none) ∧
    (Represents layout state
        (used ++ [⟨layout.heapSize - count * taskSize sizeOfTcb, none⟩]) ∨
      layout.heapSize - count * taskSize sizeOfTcb ≤ heapMinimumBlockSize ∧
        Represents layout state used)

theorem stackBlock_pos : 0 < blockSize (stackSize * sizeOfStackType) := by
  decide

theorem blockSize_pos {xWantedSize : ℕ} (hpos : 0 < xWantedSize)
    (hlt : xWantedSize < 2 ^ 31) : 0 < blockSize xWantedSize := by
  have hfits : ∀ size more, size < 2 ^ 31 + 8 → more ≤ 8 →
      heapAddWillOverflow size more = false := by
    intro size more hsize hmore
    refine decide_eq_false ?_
    simp only [heapSizeMax]
    omega
  have hstruct : xHeapStructSize = 8 := rfl
  have halignment : portByteAlignment = 8 := rfl
  rw [blockSize, if_pos hpos, hfits _ _ (by omega) (by omega)]
  dsimp only
  rw [hfits _ _ (by omega) (by omega)]
  simp only [Bool.false_eq_true, if_false]
  split <;> omega

theorem lt_tcbBlock (hlarge : 8 < sizeOfTcb) (hlt : sizeOfTcb < 2 ^ 31) :
    heapMinimumBlockSize < blockSize sizeOfTcb := by
  obtain ⟨-, -, hle⟩ := (blockSize_cases sizeOfTcb).resolve_left
    (blockSize_pos (by omega) hlt).ne'
  simp only [heapMinimumBlockSize, xHeapStructSize] at hle ⊢
  omega

theorem forall_mem_concat {block : Block Use}
    (hused : ∀ block ∈ used, block.owner ≠ none) (hblock : block.owner ≠ none) :
    ∀ other ∈ used ++ [block], other.owner ≠ none :=
  List.forall_mem_append.mpr ⟨hused, List.forall_mem_singleton.mpr hblock⟩

theorem tcbFit_at_end (hused : ∀ block ∈ used, block.owner ≠ none)
    (htcb : heapMinimumBlockSize < blockSize sizeOfTcb) (rest : ℕ) :
    tcbFit (stackSize * sizeOfStackType) sizeOfTcb (used ++ [⟨rest, none⟩]) =
      if taskSize sizeOfTcb ≤ rest then
        some (used ++ [⟨blockSize (stackSize * sizeOfStackType),
            some (.allocated (stackSize * sizeOfStackType))⟩],
          ⟨rest - blockSize (stackSize * sizeOfStackType), none⟩, [])
      else none := by
  have hsize : taskSize sizeOfTcb =
    blockSize (stackSize * sizeOfStackType) + blockSize sizeOfTcb := rfl
  rw [tcbFit, firstFit_at_end hused]
  by_cases hstack : blockSize (stackSize * sizeOfStackType) ≤ rest
  · rw [if_pos hstack, Option.bind_some, allocated, List.append_nil]
    by_cases hmore : heapMinimumBlockSize <
        rest - blockSize (stackSize * sizeOfStackType)
    · rw [carve_at_end used hmore, firstFit_at_end
        (forall_mem_concat hused (Option.some_ne_none _))]
      by_cases hle : taskSize sizeOfTcb ≤ rest
      · rw [if_pos (by omega), if_pos hle]
      · rw [if_neg (by omega), if_neg hle]
    · rw [if_neg (by omega), carve, if_neg hmore]
      exact firstFit_eq_none_iff.mpr fun block hmem hfree => absurd hfree
        (forall_mem_concat hused (Option.some_ne_none _) block hmem)
  · rw [if_neg hstack, if_neg (by omega)]
    rfl

theorem owner_ne_none (size xWantedSize : ℕ) :
    (⟨size, some (.allocated xWantedSize)⟩ : Block Use).owner ≠ none :=
  Option.some_ne_none _

/-- There is room for one more task. -/
theorem Filled.create (hfilled : Filled layout sizeOfTcb state count)
    (htcb : heapMinimumBlockSize < blockSize sizeOfTcb)
    (hroom : (count + 1) * taskSize sizeOfTcb ≤ layout.heapSize) :
    ∃ after, prvCreateTask layout sizeOfTcb stackSize state =
        some (some (layout.uxStartAddress + count * taskSize sizeOfTcb +
          blockSize (stackSize * sizeOfStackType) + xHeapStructSize), after) ∧
      Filled layout sizeOfTcb after (count + 1) := by
  obtain ⟨hle, used, hused, hblocks⟩ := hfilled
  have hcount : (count + 1) * taskSize sizeOfTcb =
      count * taskSize sizeOfTcb + taskSize sizeOfTcb := Nat.succ_mul ..
  have hsize : taskSize sizeOfTcb =
    blockSize (stackSize * sizeOfStackType) + blockSize sizeOfTcb := rfl
  rcases hblocks with hheap | ⟨hsmall, -⟩
  · have htotal := hheap.total
    rw [total_append, total_cons, total_nil] at htotal
    dsimp only at htotal
    have hheapSize : layout.heapSize = layout.uxEndAddress -
      layout.uxStartAddress := rfl
    have hplace : total used = count * taskSize sizeOfTcb := by omega
    have hfit := tcbFit_at_end hused htcb
      (layout.heapSize - count * taskSize sizeOfTcb)
    rw [if_pos (by omega)] at hfit
    rcases hheap.prvCreateTask stackBlock_pos
      (Nat.zero_lt_of_lt htcb) with
      ⟨hit, after, hhit, hcall, hafter⟩ | ⟨hnone, -⟩
    · rw [hfit] at hhit
      obtain rfl := Option.some.inj hhit
      rw [total_append, total_cons, total_nil, hplace, ← Nat.add_assoc,
        Nat.add_zero] at hcall
      refine ⟨after, hcall, hroom, ?_⟩
      rw [allocated, List.append_nil] at hafter
      have hrest : layout.heapSize - (count + 1) * taskSize sizeOfTcb =
          layout.heapSize - count * taskSize sizeOfTcb -
            blockSize (stackSize * sizeOfStackType) - blockSize sizeOfTcb := by
        omega
      have hstacked := forall_mem_concat hused (owner_ne_none
        (blockSize (stackSize * sizeOfStackType)) (stackSize * sizeOfStackType))
      by_cases hmore : heapMinimumBlockSize <
          layout.heapSize - count * taskSize sizeOfTcb -
            blockSize (stackSize * sizeOfStackType) - blockSize sizeOfTcb
      · rw [carve_at_end _ hmore, ← hrest] at hafter
        exact ⟨_, forall_mem_concat hstacked (owner_ne_none _ _), .inl hafter⟩
      · rw [carve, if_neg hmore] at hafter
        exact ⟨_, forall_mem_concat hstacked (owner_ne_none _ _),
          .inr ⟨by omega, hafter⟩⟩
    · rw [hfit] at hnone
      cases hnone
  · omega

/-- There is no room. -/
theorem Filled.create_fails (hfilled : Filled layout sizeOfTcb state count)
    (htcb : heapMinimumBlockSize < blockSize sizeOfTcb)
    (hfull : layout.heapSize < (count + 1) * taskSize sizeOfTcb) :
    ∃ after, prvCreateTask layout sizeOfTcb stackSize state =
        some (none, after) ∧ Filled layout sizeOfTcb after count := by
  obtain ⟨hle, used, hused, hblocks⟩ := hfilled
  have hcount : (count + 1) * taskSize sizeOfTcb =
      count * taskSize sizeOfTcb + taskSize sizeOfTcb := Nat.succ_mul ..
  rcases hblocks with hheap | ⟨hsmall, hheap⟩
  · have hfit := tcbFit_at_end hused htcb
      (layout.heapSize - count * taskSize sizeOfTcb)
    rw [if_neg (by omega)] at hfit
    rcases hheap.prvCreateTask stackBlock_pos
      (Nat.zero_lt_of_lt htcb) with
      ⟨hit, -, hhit, -⟩ | ⟨-, after, hcall, hafter⟩
    · rw [hfit] at hhit
      cases hhit
    · exact ⟨after, hcall, hle, used, hused, .inl hafter⟩
  · rcases hheap.prvCreateTask stackBlock_pos
      (Nat.zero_lt_of_lt htcb) with
      ⟨hit, -, hhit, -⟩ | ⟨-, after, hcall, hafter⟩
    · rw [tcbFit, firstFit_eq_none_iff.mpr fun block hmem hfree =>
        absurd hfree (hused block hmem)] at hhit
      cases hhit
    · exact ⟨after, hcall, hle, used, hused, .inr ⟨hsmall, hafter⟩⟩

/-! ## All creations -/

/-- How many tasks fit into the heap. -/
def capacity (layout : Layout) (sizeOfTcb : ℕ) : ℕ :=
  layout.heapSize / taskSize sizeOfTcb

theorem filled_prvHeapInit (layout : Layout) (sizeOfTcb : ℕ) (state : State) :
    Filled layout sizeOfTcb (prvHeapInit layout state) 0 := by
  have hheap := represents_prvHeapInit layout state
  refine ⟨?_, [], by simp, .inl ?_⟩
  · rw [Nat.zero_mul]
    exact Nat.zero_le _
  · rw [Nat.zero_mul]
    exact hheap

/-- A creation is one that has memory until the heap is full. -/
theorem Filled.next (hfilled : Filled layout sizeOfTcb state
      (min count (capacity layout sizeOfTcb)))
    (htcb : heapMinimumBlockSize < blockSize sizeOfTcb) :
    ∃ after, prvCreateTask layout sizeOfTcb stackSize state =
        some (if count < capacity layout sizeOfTcb then
          some (layout.uxStartAddress + count * taskSize sizeOfTcb +
            blockSize (stackSize * sizeOfStackType) + xHeapStructSize)
          else none, after) ∧
      Filled layout sizeOfTcb after
        (min (count + 1) (capacity layout sizeOfTcb)) := by
  have hpos : 0 < taskSize sizeOfTcb :=
    Nat.add_pos_left stackBlock_pos (blockSize sizeOfTcb)
  by_cases hcount : count < capacity layout sizeOfTcb
  · rw [if_pos hcount, min_eq_left (Nat.succ_le_of_lt hcount)]
    rw [min_eq_left hcount.le] at hfilled
    exact hfilled.create htcb ((Nat.le_div_iff_mul_le hpos).mp hcount)
  · have hle := not_lt.mp hcount
    rw [if_neg hcount, min_eq_right (Nat.le_succ_of_le hle)]
    rw [min_eq_right hle] at hfilled
    exact hfilled.create_fails htcb ((Nat.div_lt_iff_lt_mul hpos).mp
      (Nat.lt_succ_self (capacity layout sizeOfTcb)))

theorem prvCreateTask_of_start (hend : state.pxEnd = 0) (uxStackDepth : ℕ) :
    prvCreateTask layout sizeOfTcb uxStackDepth state =
      prvCreateTask layout sizeOfTcb uxStackDepth (prvHeapInit layout state) := by
  rw [prvCreateTask, prvCreateTask, pvPortMalloc_of_start hend]

theorem filled_heapAfter (htcb : heapMinimumBlockSize < blockSize sizeOfTcb)
    (memory : ℕ → BlockLink) (call : ℕ) :
    ∃ state filled, heapAfter layout sizeOfTcb memory call = some state ∧
      prvCreateTask layout sizeOfTcb stackSize state =
        prvCreateTask layout sizeOfTcb stackSize filled ∧
      Filled layout sizeOfTcb filled
        (min call (capacity layout sizeOfTcb)) := by
  induction call with
  | zero =>
      refine ⟨_, _, rfl, prvCreateTask_of_start rfl stackSize, ?_⟩
      rw [Nat.zero_min]
      exact filled_prvHeapInit layout sizeOfTcb _
  | succ call ih =>
      obtain ⟨state, filled, hstate, hsame, hfilled⟩ := ih
      obtain ⟨after, hcall, hafter⟩ := hfilled.next htcb
      refine ⟨after, after, ?_, rfl, hafter⟩
      rw [heapAfter, hstate, Option.bind_some, hsame, hcall]
      rfl

/-- The creations of the tasks have memory until the heap is full, and the
handles are a task apart. -/
theorem creates_eq (layout : Layout) (hlarge : 8 < sizeOfTcb)
    (hlt : sizeOfTcb < 2 ^ 31) (memory : ℕ → BlockLink) (call : ℕ) :
    creates layout sizeOfTcb memory call =
      if call + 1 < capacity layout sizeOfTcb then
        some (layout.uxStartAddress + (call + 1) * taskSize sizeOfTcb +
          blockSize (stackSize * sizeOfStackType) + xHeapStructSize)
      else none := by
  have htcb := lt_tcbBlock hlarge hlt
  obtain ⟨state, filled, hstate, hsame, hfilled⟩ :=
    filled_heapAfter htcb memory (call + 1)
  obtain ⟨after, hcall, -⟩ := hfilled.next htcb
  rw [creates, hstate, Option.bind_some, hsame, hcall, Option.bind_some]

theorem distinctHandles_creates (layout : Layout) (hlarge : 8 < sizeOfTcb)
    (hlt : sizeOfTcb < 2 ^ 31) (memory : ℕ → BlockLink) :
    DistinctHandles (creates layout sizeOfTcb memory) := by
  intro first second handle hfirst hsecond
  rw [creates_eq layout hlarge hlt] at hfirst hsecond
  obtain ⟨-, hfirst⟩ := Option.ite_none_right_eq_some.mp hfirst
  obtain ⟨-, hsecond⟩ := Option.ite_none_right_eq_some.mp hsecond
  have hpos : 0 < taskSize sizeOfTcb :=
    Nat.add_pos_left stackBlock_pos (blockSize sizeOfTcb)
  have heq := Option.some.inj hfirst |>.trans (Option.some.inj hsecond).symm
  have hmul : (first + 1) * taskSize sizeOfTcb =
      (second + 1) * taskSize sizeOfTcb := by
    omega
  exact Nat.succ.inj (Nat.eq_of_mul_eq_mul_right hpos hmul)

/-! ## The allocation -/

variable {cfg : Config} {table : TaskTable cfg}

theorem creates_ne_none_iff (layout : Layout) (hlarge : 8 < sizeOfTcb)
    (hlt : sizeOfTcb < 2 ^ 31) (memory : ℕ → BlockLink) (call : ℕ) :
    creates layout sizeOfTcb memory call ≠ none ↔
      call + 1 < capacity layout sizeOfTcb := by
  rw [creates_eq layout hlarge hlt]
  split
  · rename_i hroom
    exact iff_of_true (Option.some_ne_none _) hroom
  · rename_i hfull
    exact iff_of_false (not_not.mpr rfl) hfull

/-- The allocation is consistent exactly when the monitor and the pieces up to
the last one that the packing uses fit into the heap. -/
theorem consistent_iff_room (hlarge : 8 < sizeOfTcb) (hlt : sizeOfTcb < 2 ^ 31)
    (memory : ℕ → BlockLink) :
    LeavesConsistent (creates layout sizeOfTcb memory) table ↔
      ∀ slot ∈ usedSlots table, slot + 1 < capacity layout sizeOfTcb := by
  have hdistinct := distinctHandles_creates layout hlarge hlt memory
  have hroom := creates_ne_none_iff layout hlarge hlt memory
  constructor
  · intro hconsistent slot hslot
    exact (hroom slot).mp (created_of_consistent hdistinct hconsistent slot hslot)
  · intro hslots
    exact consistent_of_created hdistinct fun slot hslot =>
      (hroom slot).mpr (hslots slot hslot)

/-- The monitor and the eight pieces of `main` fit into the heap if a TCB has 88
bytes, and they do not if it has 104. -/
theorem mainTable_consistent :
    LeavesConsistent (creates alignedLayout 88 fun _ => ⟨0, 0⟩) mainTable ∧
      ¬LeavesConsistent (creates alignedLayout 104 fun _ => ⟨0, 0⟩) mainTable :=
  ⟨(consistent_iff_room (by decide) (by decide) _).mpr (by decide +kernel),
    mt (consistent_iff_room (by decide) (by decide) _).mp (by decide +kernel)⟩

end PicoSched.Heap
