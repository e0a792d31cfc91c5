import PicoSched.Runtime.HeapMalloc

/-!
# Freeing

`vPortFree` first takes the mark off a block and then puts it into the list of
free blocks, where it is merged with the free blocks before and behind it.
-/

namespace PicoSched.Heap

open BlockList

variable {layout : Layout} {state : State} {blocks front back : List (Block Use)}
  {block : Block Use} {target previous address size : ℕ}

/-! ## The mark -/

theorem testBit_or_mark (size : ℕ) : (size ||| 2 ^ 31).testBit 31 = true := by
  rw [Nat.testBit_or, Nat.testBit_two_pow_self, Bool.or_true]

theorem mark_and {size : ℕ} (hlt : size < 2 ^ 31) :
    (size ||| 2 ^ 31) &&& (2 ^ 31 - 1) = size := by
  rw [Nat.and_two_pow_sub_one_eq_mod, Nat.or_mod_two_pow, Nat.mod_self,
    Nat.or_zero, Nat.mod_eq_of_lt hlt]

theorem Fitted.released (hfitted : Fitted (front ++ ([block] ++ back))) :
    Fitted (front ++ ([⟨block.size, some Use.released⟩] ++ back)) := by
  have hmem : block ∈ front ++ ([block] ++ back) := by simp
  have hcases : ∀ part ∈ front ++ ([⟨block.size, some Use.released⟩] ++ back),
      part = ⟨block.size, some Use.released⟩ ∨
        part ∈ front ++ ([block] ++ back) := by
    intro part hpart
    simp only [List.mem_append, List.mem_singleton] at hpart ⊢
    tauto
  constructor
  · intro part hpart
    rcases hcases part hpart with rfl | hpart
    · exact hfitted.size block hmem
    · exact hfitted.size part hpart
  · intro part hpart
    rcases hcases part hpart with rfl | hpart
    · exact hfitted.aligned block hmem
    · exact hfitted.aligned part hpart
  · intro part hpart
    rcases hcases part hpart with rfl | hpart
    · rintro _ ⟨⟩
    · exact hfitted.wanted part hpart
  · exact hfitted.coalesced.use (Option.some_ne_none _)

/-- The mark is taken off a block of the program. -/
theorem Represents.release {xWantedSize : ℕ}
    (hheap : Represents layout state (front ++ ([block] ++ back)))
    (haddress : layout.uxStartAddress + BlockList.total front = address)
    (howner : block.owner = some (.allocated xWantedSize)) :
    ∃ after, vPortFreeRelease (address + xHeapStructSize) state = some after ∧
      Represents layout after
        (front ++ ([⟨block.size, some .released⟩] ++ back)) := by
  have houtside := layout.xStart_outside
  have hregion := hheap.total
  rw [total_append, total_append, total_cons, total_nil] at hregion
  have hprevious := hheap.lastFree_outside
  have hpos := hheap.fitted.pos block (by simp)
  have hlt := hheap.total_lt
  rw [total_append, total_append, total_cons, total_nil] at hlt
  have hlink := hheap.next_lastFree
  have hne : lastFree layout.xStart layout.uxStartAddress front ≠ address := by
    omega
  obtain ⟨-, hheader, -⟩ := (linked_append ..).mp hheap.linked
  have hmarked : state.memory address = ⟨0, block.size ||| 2 ^ 31⟩ := by
    rw [← haddress, hheader, header, howner]
  have hsize : state.size address = block.size ||| 2 ^ 31 :=
    congrArg BlockLink.xBlockSize hmarked
  have hnext : state.next address = 0 :=
    congrArg BlockLink.pxNextFreeBlock hmarked
  have hallocated : heapBlockIsAllocated address state = true := by
    rw [heapBlockIsAllocated, hsize]
    exact testBit_or_mark block.size
  refine ⟨heapFreeBlock address state, ?_, ?_⟩
  · rw [vPortFreeRelease, Nat.add_sub_cancel, hallocated, hnext]
    exact if_pos ⟨Nat.succ_ne_zero _, rfl, rfl⟩
  · have hmemory : (heapFreeBlock address state).memory =
        Function.update state.memory address ⟨0, block.size⟩ := by
      rw [heapFreeBlock, memory_setSize, hsize, hnext, mark_and (by omega)]
    refine hheap.replace haddress rfl rfl (by simp) ?_ ?_ ?_ ?_
      hheap.fitted.released
    · rw [hmemory, Function.update_of_ne hne]
      refine congrArg (BlockLink.mk · _) (hlink.trans ?_)
      rw [haddress]
      change firstFree _ _ (block :: back) = firstFree _ _ (_ :: back)
      rw [firstFree, firstFree, howner]
      rfl
    · intro entry _ hrange
      rw [total_cons, total_nil] at hrange
      rw [hmemory, Function.update_of_ne (by omega)]
    · refine ⟨?_, trivial⟩
      rw [hmemory, Function.update_self]
      rfl
    · have hreleased : (⟨block.size, some Use.released⟩ : Block Use).freeSize =
          0 := rfl
      refine hheap.free.trans ?_
      simp only [freeTotal_append, freeTotal_cons, freeTotal_nil, hreleased,
        freeSize_of_owner howner]

/-! ## The place in the list -/

/-- The loop of `prvInsertBlockIntoFreeList` ends at the last free block before
the address. -/
theorem findPosition_eq
    (hthreaded : Threaded state.memory target previous address blocks)
    (hpos : ∀ block ∈ blocks, 0 < block.size)
    (htarget : address + total blocks ≤ target) {fuel : ℕ}
    (hfuel : blocks.length < fuel) :
    findPosition state (address + total blocks) fuel previous =
      some (lastFree previous address blocks) := by
  induction blocks generalizing previous address fuel with
  | nil =>
      obtain ⟨fuel, rfl⟩ := Nat.exists_eq_succ_of_ne_zero
        (Nat.ne_zero_of_lt hfuel)
      have hnext : state.next previous = target := hthreaded.first
      rw [findPosition, hnext, if_neg (not_lt.mpr htarget)]
      rfl
  | cons block blocks ih =>
      obtain ⟨hfirst, hheader, hlinked⟩ := hthreaded
      obtain ⟨hblock, hblocks⟩ := List.forall_mem_cons.mp hpos
      rw [total_cons, ← Nat.add_assoc] at htarget ⊢
      rw [firstFree] at hfirst
      rw [lastFree]
      cases howner : block.owner with
      | some use =>
          rw [howner] at hfirst
          exact ih ⟨hfirst, hlinked⟩ hblocks htarget (Nat.lt_of_succ_lt hfuel)
      | none =>
          obtain ⟨fuel, rfl⟩ := Nat.exists_eq_succ_of_ne_zero
            (Nat.ne_zero_of_lt hfuel)
          rw [howner] at hfirst
          have hnext : state.next previous = address := hfirst
          rw [header_of_free howner] at hheader
          rw [findPosition, hnext, if_pos (by omega)]
          exact ih ⟨congrArg BlockLink.pxNextFreeBlock hheader, hlinked⟩ hblocks
            htarget (Nat.lt_of_succ_lt_succ hfuel)

/-! ## Merging -/

/-- The block is linked to the free block behind it, or merged with it. -/
theorem memory_mergeBehind (pxIterator pxBlock size : ℕ)
    (back : List (Block Use)) {state : State}
    (hend : state.pxEnd = target) (hsize : state.size pxBlock = size)
    (hnext : state.next pxIterator = firstFree target (pxBlock + size) back)
    (hlinked : Linked state.memory target (pxBlock + size) back)
    (htotal : pxBlock + size + total back = target)
    (hpos : ∀ block ∈ back, 0 < block.size) (hsizePos : 0 < size) :
    (mergeBehind pxIterator pxBlock state).memory =
      Function.update state.memory pxBlock
        ⟨firstFree target (pxBlock + (absorb size back).1)
          (absorb size back).2, (absorb size back).1⟩ := by
  rw [mergeBehind, hsize, hnext, hend]
  dsimp only
  rcases absorb_cases size back with
    ⟨next, rest, rfl, hfree, habsorb⟩ | ⟨habsorb, hbehind⟩
  · obtain ⟨hnextPos, -⟩ := List.forall_mem_cons.mp hpos
    rw [total_cons] at htotal
    have hfirst : firstFree target (pxBlock + size) (next :: rest) =
        pxBlock + size := by
      rw [firstFree, hfree]
      rfl
    obtain ⟨hheader, -⟩ := hlinked
    rw [header_of_free hfree] at hheader
    have hne : pxBlock + size ≠ pxBlock := by omega
    have hnotEnd : pxBlock + size ≠ target := by omega
    rw [habsorb, hfirst, if_pos rfl, if_pos hnotEnd, memory_setNext,
      memory_setSize, Function.update_idem]
    refine congrArg (Function.update state.memory pxBlock) ?_
    simp only [State.size, State.next, memory_setSize, Function.update_self,
      Function.update_of_ne hne, hheader, Nat.add_assoc]
  · rw [habsorb]
    cases back with
    | nil =>
        rw [total_nil, Nat.add_zero] at htotal
        rw [firstFree, if_pos htotal, if_neg (not_not.mpr rfl), memory_setNext,
          hsize]
    | cons next rest =>
        obtain ⟨hnextPos, -⟩ := List.forall_mem_cons.mp hpos
        rw [total_cons] at htotal
        have hused : next.owner ≠ none := hbehind next rfl
        have hfar : pxBlock + size ≠
            firstFree target (pxBlock + size) (next :: rest) := by
          rw [firstFree, if_neg (mt Option.isNone_iff_eq_none.mp hused)]
          rcases firstFree_cases target (pxBlock + size + next.size) rest with
            heq | hmem
          · rw [heq]
            omega
          · have hle := le_of_mem_starts hmem
            omega
        rw [if_neg hfar, memory_setNext, hsize]

theorem mergeBehind_frame (pxIterator pxBlock : ℕ) (state : State) :
    (mergeBehind pxIterator pxBlock state).pxEnd = state.pxEnd ∧
      (mergeBehind pxIterator pxBlock state).xFreeBytesRemaining =
        state.xFreeBytesRemaining := by
  rw [mergeBehind]
  dsimp only
  split
  · split <;> exact ⟨rfl, rfl⟩
  · exact ⟨rfl, rfl⟩

/-- The block before is used, so there is nothing to merge with. -/
theorem Represents.mergeBefore_of_used
    (hheap : Represents layout state (front ++ (block :: back)))
    (hbefore : ∀ other ∈ front.getLast?, other.owner ≠ none)
    {counted : State} (hmemory : counted.memory = state.memory) :
    mergeBefore (lastFree layout.xStart layout.uxStartAddress front)
        (layout.uxStartAddress + BlockList.total front) counted =
      (layout.uxStartAddress + BlockList.total front, counted) := by
  refine if_neg ?_
  rw [State.size, hmemory]
  have houtside := layout.xStart_outside
  have hregion := hheap.total
  rw [total_append, total_cons] at hregion
  have hpos := hheap.fitted.pos
  rcases used_or_last front with hused | ⟨front', last, rest, rfl, hfree, hused⟩
  · rw [lastFree_of_used hused, hheap.xStart]
    have hblock := hpos block (by simp)
    dsimp only
    omega
  · rw [lastFree_of_last hfree hused]
    rw [List.append_assoc] at hheap
    obtain ⟨-, hheader, -⟩ := (linked_append ..).mp hheap.linked
    rw [header_of_free hfree] at hheader
    rw [hheader, total_append, total_cons]
    dsimp only
    cases rest with
    | nil =>
        refine absurd hfree (hbefore last ?_)
        simp
    | cons next rest =>
        have hnext := hpos next (by simp)
        rw [total_cons]
        omega

/-- The block before is free. -/
theorem Represents.mergeBefore_of_free {last : Block Use}
    (hheap : Represents layout state (front ++ (last :: block :: back)))
    (hfree : last.owner = none)
    {counted : State} (hmemory : counted.memory = state.memory)
    (hsize : counted.size
      (layout.uxStartAddress + BlockList.total front + last.size) = size) :
    mergeBefore (layout.uxStartAddress + BlockList.total front)
        (layout.uxStartAddress + BlockList.total front + last.size) counted =
      (layout.uxStartAddress + BlockList.total front,
        counted.setSize (layout.uxStartAddress + BlockList.total front)
          (last.size + size)) := by
  obtain ⟨-, hheader, -⟩ := (linked_append ..).mp hheap.linked
  rw [header_of_free hfree] at hheader
  rw [← hmemory] at hheader
  have hlast : counted.size (layout.uxStartAddress + BlockList.total front) =
      last.size := congrArg BlockLink.xBlockSize hheader
  rw [mergeBefore, hlast, if_pos rfl, hsize]

theorem Fitted.coalesce (hfitted : Fitted (front ++ (block :: back))) :
    Fitted (BlockList.coalesce (front ++ ⟨block.size, none⟩ :: back)) := by
  have hmem : block ∈ front ++ (block :: back) := by simp
  have hparts : ∀ part ∈ front ++ ⟨block.size, none⟩ :: back,
      heapMinimumBlockSize ≤ part.size ∧ part.size % portByteAlignment = 0 ∧
        ∀ xWantedSize, part.owner = some (Use.allocated xWantedSize) →
          xWantedSize + xHeapStructSize ≤ part.size := by
    intro part hpart
    rcases List.mem_append.mp hpart with hpart | hpart
    · have hpart' := List.mem_append_left (block :: back) hpart
      exact ⟨hfitted.size part hpart', hfitted.aligned part hpart',
        hfitted.wanted part hpart'⟩
    · rcases List.mem_cons.mp hpart with rfl | hpart
      · exact ⟨hfitted.size block hmem, hfitted.aligned block hmem, by simp⟩
      · have hpart' := List.mem_append_right front (List.mem_cons_of_mem block hpart)
        exact ⟨hfitted.size part hpart', hfitted.aligned part hpart',
          hfitted.wanted part hpart'⟩
  have hcoalesced := forall_mem_coalesce hparts fun part next hpart hnext _ _ =>
    ⟨hpart.1.trans (Nat.le_add_right _ _), by
      have haligned := hpart.2.1
      have haligned' := hnext.2.1
      simp only [portByteAlignment] at haligned haligned' ⊢
      omega, by simp⟩
  exact ⟨fun part hpart => (hcoalesced part hpart).1,
    fun part hpart => (hcoalesced part hpart).2.1,
    fun part hpart => (hcoalesced part hpart).2.2, coalesced_coalesce _⟩

/-! ## The call -/

/-- The block and the free ones it is merged with become one free block, to
which `previous` is linked. -/
theorem Represents.join {old rest : List (Block Use)} {after : State}
    (hheap : Represents layout state (front ++ (old ++ rest)))
    (haddress : layout.uxStartAddress + BlockList.total front = address)
    (hlast : lastFree layout.xStart layout.uxStartAddress front = previous)
    (hend : after.pxEnd = state.pxEnd)
    (hfree : after.xFreeBytesRemaining =
      freeTotal (front ++ ([⟨BlockList.total old, none⟩] ++ rest)))
    (hfitted : Fitted (front ++ ([⟨BlockList.total old, none⟩] ++ rest)))
    (hlink : after.memory previous = ⟨address, state.size previous⟩)
    (hblock : after.memory address =
      ⟨firstFree layout.uxEndAddress (address + BlockList.total old) rest,
        BlockList.total old⟩)
    (hsame : ∀ entry, entry ≠ previous → entry ≠ address →
      after.memory entry = state.memory entry) :
    Represents layout after
      (front ++ ([⟨BlockList.total old, none⟩] ++ rest)) := by
  have hpos := hfitted.pos ⟨BlockList.total old, none⟩ (by simp)
  refine hheap.replace haddress hlast hend (by simp) hlink ?_ ⟨hblock, trivial⟩
    hfree hfitted
  intro entry hprevious hrange
  refine hsame entry hprevious ?_
  dsimp only at hpos
  omega

theorem prvInsertBlockIntoFreeList_eq {pxIterator pxBlock : ℕ}
    {counted after : State}
    (hposition : findPosition counted address configTotalHeapSize
      layout.xStart = some pxIterator)
    (hbefore : mergeBefore pxIterator address counted = (pxBlock, state))
    (hbehind : mergeBehind pxIterator pxBlock state = after) :
    prvInsertBlockIntoFreeList layout address counted =
      some (if pxIterator ≠ pxBlock then after.setNext pxIterator pxBlock
        else after) := by
  rw [prvInsertBlockIntoFreeList, hposition, Option.map_some, hbefore]
  dsimp only
  rw [hbehind]

theorem Represents.findPosition_eq
    (hheap : Represents layout state (front ++ back))
    (haddress : layout.uxStartAddress + BlockList.total front = address)
    {counted : State} (hmemory : counted.memory = state.memory) :
    findPosition counted address configTotalHeapSize layout.xStart =
      some (lastFree layout.xStart layout.uxStartAddress front) := by
  have hthreaded := hheap.threaded_front
  have hregion := hheap.total
  rw [total_append] at hregion
  have hlength := hheap.length_lt
  rw [List.length_append] at hlength
  rw [← hmemory] at hthreaded
  rw [← haddress]
  refine Heap.findPosition_eq hthreaded hheap.pos_front ?_ (by omega)
  rcases firstFree_cases layout.uxEndAddress
    (layout.uxStartAddress + BlockList.total front) back with heq | hmem
  · rw [heq]
    omega
  · exact le_of_mem_starts hmem

/-- The free bytes when a released block becomes free. -/
theorem Represents.freeTotal_insert
    (hheap : Represents layout state (front ++ (block :: back)))
    (howner : block.owner = some .released) :
    state.xFreeBytesRemaining + block.size =
      freeTotal (coalesce (front ++ ⟨block.size, none⟩ :: back)) := by
  have hfree : (⟨block.size, none⟩ : Block Use).freeSize = block.size := rfl
  rw [freeTotal_coalesce, hheap.free]
  simp only [freeTotal_append, freeTotal_cons, hfree, freeSize_of_owner howner]
  omega

/-- The block is not merged with the one before it. -/
theorem Represents.insert_of_used
    (hheap : Represents layout state (front ++ (block :: back)))
    (haddress : layout.uxStartAddress + BlockList.total front = address)
    (howner : block.owner = some .released)
    (hbefore : ∀ other ∈ front.getLast?, other.owner ≠ none)
    {counted : State} (hmemory : counted.memory = state.memory)
    (hend : counted.pxEnd = state.pxEnd)
    (hfree : counted.xFreeBytesRemaining =
      state.xFreeBytesRemaining + block.size) :
    ∃ after, prvInsertBlockIntoFreeList layout address counted = some after ∧
      Represents layout after
        (coalesce (front ++ ⟨block.size, none⟩ :: back)) := by
  have hregion := hheap.total
  rw [total_append, total_cons] at hregion
  have hpositive := hheap.fitted.pos
  have hblockPos := hpositive block (by simp)
  obtain ⟨-, hheader, hback⟩ := (linked_append ..).mp hheap.linked
  rw [haddress] at hheader hback
  rw [header, howner] at hheader
  have houtside := layout.xStart_outside
  have hlast := hheap.lastFree_outside
  have hne : lastFree layout.xStart layout.uxStartAddress front ≠ address := by
    omega
  have hnext : counted.next (lastFree layout.xStart layout.uxStartAddress front) =
      firstFree layout.uxEndAddress (address + block.size) back := by
    rw [State.next, hmemory]
    refine hheap.next_lastFree.trans ?_
    rw [firstFree, howner, haddress]
    rfl
  have hmerge := hheap.mergeBefore_of_used hbefore hmemory
  rw [haddress] at hmerge
  have hmemoryBehind := memory_mergeBehind _ address block.size back
    (hend.trans hheap.pxEnd) (by rw [State.size, hmemory, hheader]) hnext
    (by rwa [hmemory]) (by omega) (fun other hother => hpositive other
      (List.mem_append_right _ (List.mem_cons_of_mem _ hother))) hblockPos
  obtain ⟨hendBehind, hfreeBehind⟩ := mergeBehind_frame
    (lastFree layout.xStart layout.uxStartAddress front) address counted
  obtain ⟨absorbed, hsplit, hsize⟩ := absorb_eq block.size back
  rw [← total_cons] at hsize
  have hcoalesced := hheap.fitted.coalesced
  obtain ⟨hfront, hrest, -⟩ := coalesced_append.mp hcoalesced
  have hjoined := coalesce_absorb hfront (List.isChain_cons.mp hrest).2 hbefore
    block.size
  have hfitted := hheap.fitted.coalesce
  have hfreeTotal := hheap.freeTotal_insert howner
  rw [hjoined, hsize] at hfitted hfreeTotal ⊢
  rw [hsize] at hmemoryBehind
  rw [hsplit] at hheap
  generalize (absorb block.size back).2 = rest at *
  change Represents layout state (front ++ ((block :: absorbed) ++ rest)) at hheap
  refine ⟨_, prvInsertBlockIntoFreeList_eq
    (hheap.findPosition_eq haddress hmemory) hmerge rfl, ?_⟩
  rw [if_pos hne]
  refine hheap.join haddress rfl ?_ ?_ hfitted ?_ ?_ ?_
  · exact hendBehind.trans hend
  · exact hfreeBehind.trans (hfree.trans hfreeTotal)
  · rw [memory_setNext, Function.update_self, State.size, hmemoryBehind,
      Function.update_of_ne hne, hmemory]
    rfl
  · rw [memory_setNext, Function.update_of_ne hne.symm, hmemoryBehind,
      Function.update_self]
  · intro entry hprevious hother
    rw [memory_setNext, Function.update_of_ne hprevious, hmemoryBehind,
      Function.update_of_ne hother, hmemory]

/-- The block is merged with the one before it. -/
theorem Represents.insert_of_free {last : Block Use}
    (hheap : Represents layout state (front ++ (last :: block :: back)))
    (haddress : layout.uxStartAddress + BlockList.total front = address)
    (hlast : last.owner = none) (howner : block.owner = some .released)
    {counted : State} (hmemory : counted.memory = state.memory)
    (hend : counted.pxEnd = state.pxEnd)
    (hfree : counted.xFreeBytesRemaining =
      state.xFreeBytesRemaining + block.size) :
    ∃ after, prvInsertBlockIntoFreeList layout (address + last.size) counted =
        some after ∧
      Represents layout after
        (coalesce (front ++ last :: ⟨block.size, none⟩ :: back)) := by
  have hregion := hheap.total
  rw [total_append, total_cons, total_cons] at hregion
  have hpositive := hheap.fitted.pos
  have hlastPos := hpositive last (by simp)
  obtain ⟨-, hlastHeader, hheader, hback⟩ := (linked_append ..).mp hheap.linked
  rw [haddress] at hlastHeader hheader hback
  rw [header_of_free hlast, firstFree, howner] at hlastHeader
  rw [header, howner] at hheader
  have houtside := layout.xStart_outside
  have hprevious := hheap.lastFree_outside
  have hne : lastFree layout.xStart layout.uxStartAddress front ≠ address := by
    omega
  have hsize : counted.size (layout.uxStartAddress + BlockList.total front +
      last.size) = block.size := by
    rw [haddress, State.size, hmemory, hheader]
  have hmerge := hheap.mergeBefore_of_free hlast hmemory hsize
  rw [haddress] at hmerge
  have hlink := hheap.next_lastFree
  rw [firstFree, hlast] at hlink
  have hwhole : Represents layout state ((front ++ [last]) ++ block :: back) := by
    rwa [List.append_assoc]
  have hiterator : lastFree layout.xStart layout.uxStartAddress
      (front ++ [last]) = address := by
    rw [lastFree_of_last hlast (by simp), haddress]
  have hplace : layout.uxStartAddress + BlockList.total (front ++ [last]) =
      address + last.size := by
    rw [total_append, total_cons, total_nil]
    omega
  have hposition := hwhole.findPosition_eq hplace hmemory
  rw [hiterator] at hposition
  have hcoalesced := hheap.fitted.coalesced
  obtain ⟨hfront, hrest, hseam⟩ := coalesced_append.mp hcoalesced
  have hback' := (List.isChain_cons.mp (List.isChain_cons.mp hrest).2).2
  have hjoined := (coalesce_join front hlast
    (rfl : (⟨block.size, none⟩ : Block Use).owner = none) back).trans
      (coalesce_absorb hfront hback'
        (fun other hmem hother => hseam other hmem last rfl hother hlast) _)
  have hfitted := hwhole.fitted.coalesce
  have hfreeTotal := hwhole.freeTotal_insert howner
  rw [List.append_assoc, List.singleton_append] at hfitted hfreeTotal
  have hmemoryMerged : (counted.setSize address
      (last.size + block.size)).memory =
        Function.update state.memory address
          ⟨firstFree layout.uxEndAddress (address + last.size + block.size) back,
            last.size + block.size⟩ := by
    rw [memory_setSize, State.next, hmemory, hlastHeader]
    rfl
  have hlinked : Linked (counted.setSize address
      (last.size + block.size)).memory layout.uxEndAddress
        (address + (last.size + block.size)) back := by
    rw [hmemoryMerged, ← Nat.add_assoc]
    refine hback.congr fun entry hmem => Function.update_of_ne ?_ ..
    have hle := le_of_mem_starts hmem
    omega
  have hmergedEnd : (counted.setSize address
      (last.size + block.size)).pxEnd = layout.uxEndAddress :=
    hend.trans hheap.pxEnd
  have hmemoryBehind := memory_mergeBehind address address
    (last.size + block.size) back hmergedEnd
    (by rw [State.size, hmemoryMerged, Function.update_self])
    (by rw [State.next, hmemoryMerged, Function.update_self, Nat.add_assoc])
    hlinked (by omega) (fun other hother => hpositive other (by simp [hother]))
    (by omega)
  rw [hmemoryMerged, Function.update_idem] at hmemoryBehind
  obtain ⟨hendBehind, hfreeBehind⟩ := mergeBehind_frame address address
    (counted.setSize address (last.size + block.size))
  obtain ⟨absorbed, hsplit, hsizeJoined⟩ :=
    absorb_eq (last.size + block.size) back
  rw [Nat.add_assoc, ← total_cons, ← total_cons] at hsizeJoined
  rw [hjoined, hsizeJoined] at hfitted hfreeTotal
  rw [hjoined, hsizeJoined]
  rw [hsizeJoined] at hmemoryBehind
  rw [hsplit] at hheap
  generalize (absorb (last.size + block.size) back).2 = rest at *
  change Represents layout state
    (front ++ ((last :: block :: absorbed) ++ rest)) at hheap
  refine ⟨_, prvInsertBlockIntoFreeList_eq hposition hmerge rfl, ?_⟩
  rw [if_neg (not_not.mpr rfl)]
  refine hheap.join haddress rfl ?_ ?_ hfitted ?_ ?_ ?_
  · exact hendBehind.trans hend
  · exact hfreeBehind.trans (hfree.trans hfreeTotal)
  · rw [hmemoryBehind, Function.update_of_ne hne]
    exact congrArg (BlockLink.mk · _) (hlink.trans haddress)
  · rw [hmemoryBehind, Function.update_self]
  · intro entry hentry hother
    rw [hmemoryBehind, Function.update_of_ne hother]

/-- The counters do not matter to the blocks. -/
theorem Represents.congr (hheap : Represents layout state blocks)
    {after : State} (hmemory : after.memory = state.memory)
    (hend : after.pxEnd = state.pxEnd)
    (hfree : after.xFreeBytesRemaining = state.xFreeBytesRemaining) :
    Represents layout after blocks where
  pxEnd := hend.trans hheap.pxEnd
  total := hheap.total
  xStart := hmemory ▸ hheap.xStart
  linked := hmemory ▸ hheap.linked
  endMarker := hmemory ▸ hheap.endMarker
  free := hfree.trans hheap.free
  fitted := hheap.fitted

/-- A block that was released is put into the list of free blocks. -/
theorem Represents.insert
    (hheap : Represents layout state (front ++ (block :: back)))
    (haddress : layout.uxStartAddress + BlockList.total front = address)
    (howner : block.owner = some .released) :
    ∃ after, vPortFreeInsert layout (address + xHeapStructSize) state =
        some after ∧
      Represents layout after
        (coalesce (front ++ ⟨block.size, none⟩ :: back)) := by
  obtain ⟨-, hheader, -⟩ := (linked_append ..).mp hheap.linked
  rw [haddress, header, howner] at hheader
  have hsize : state.size address = block.size :=
    congrArg BlockLink.xBlockSize hheader
  have hbytes : (state.xFreeBytesRemaining + state.size address) % 2 ^ 32 =
      state.xFreeBytesRemaining + block.size := by
    have hle := freeTotal_le_total
      (coalesce (front ++ ⟨block.size, none⟩ :: back))
    have hlt := hheap.total_lt
    rw [← hheap.freeTotal_insert howner, total_coalesce, total_append,
      total_cons] at hle
    rw [total_append, total_cons] at hlt
    dsimp only at hle
    rw [hsize]
    omega
  have hinsert : ∃ after, prvInsertBlockIntoFreeList layout address { state with
      xFreeBytesRemaining :=
        (state.xFreeBytesRemaining + state.size address) % 2 ^ 32 } =
          some after ∧
      Represents layout after
        (coalesce (front ++ ⟨block.size, none⟩ :: back)) := by
    by_cases hbefore : ∀ other ∈ front.getLast?, other.owner ≠ none
    · exact hheap.insert_of_used haddress howner hbefore rfl rfl hbytes
    · push Not at hbefore
      obtain ⟨last, hlast, hfree⟩ := hbefore
      obtain ⟨front, rfl⟩ := List.getLast?_eq_some_iff.mp hlast
      rw [List.append_assoc] at hheap ⊢
      rw [total_append, total_cons, total_nil, Nat.add_zero,
        ← Nat.add_assoc] at haddress
      rw [← haddress] at hbytes ⊢
      exact hheap.insert_of_free rfl hfree howner rfl rfl hbytes
  obtain ⟨after, hafter, hrepresents⟩ := hinsert
  refine ⟨{ after with xNumberOfSuccessfulFrees :=
    (after.xNumberOfSuccessfulFrees + 1) % 2 ^ 32 }, ?_,
      hrepresents.congr rfl rfl rfl⟩
  rw [vPortFreeInsert, Nat.add_sub_cancel, hafter]
  rfl

end PicoSched.Heap
