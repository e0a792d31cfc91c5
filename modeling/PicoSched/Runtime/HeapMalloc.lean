import PicoSched.Runtime.HeapBlocks

/-!
# Allocation

`pvPortMalloc` gives away the first free block that is large enough, and cuts it
if enough of it is left.
-/

namespace PicoSched.Heap

open BlockList

variable {layout : Layout} {state : State} {blocks front back : List (Block Use)}
  {block : Block Use} {target previous address wanted : ℕ}

/-! ## The first call -/

theorem represents_prvHeapInit (layout : Layout) (state : State) :
    Represents layout (prvHeapInit layout state)
      [⟨layout.uxEndAddress - layout.uxStartAddress, none⟩] := by
  have hstart := layout.start_bounds
  have hend := layout.end_bounds
  have hapart := layout.xStart_outside
  have hne : layout.uxEndAddress ≠ layout.uxStartAddress := by omega
  have hneStart : layout.xStart ≠ layout.uxStartAddress := by omega
  have hneEnd : layout.xStart ≠ layout.uxEndAddress := by omega
  constructor
  · rfl
  · simp only [total_cons, total_nil]
    omega
  · simp only [prvHeapInit, State.setBlock, Function.update_of_ne hneStart,
      Function.update_of_ne hneEnd, Function.update_self]
    rfl
  · refine ⟨?_, trivial⟩
    exact Function.update_self ..
  · simp only [prvHeapInit, State.setBlock, Function.update_of_ne hne,
      Function.update_self]
  · rfl
  · constructor
    · simp only [List.forall_mem_singleton, heapMinimumBlockSize,
        xHeapStructSize]
      omega
    · simp only [List.forall_mem_singleton, portByteAlignment]
      omega
    · simp
    · exact List.isChain_singleton _

/-! ## The search -/

/-- The loop of `pvPortMalloc` ends at the first block that fits, and at the end
marker if there is none. -/
theorem findBlock_eq (hthreaded : Threaded state.memory target previous address
      blocks) (hend : state.memory target = ⟨0, 0⟩) (htarget : target ≠ 0)
    (haddress : 0 < address) {fuel : ℕ}
    (hfuel : blocks.length < fuel) :
    findBlock state wanted fuel previous (firstFree target address blocks) =
      some ((firstFit wanted blocks).elim
        (lastFree previous address blocks, target)
        fun hit => (lastFree previous address hit.1,
          address + total hit.1)) := by
  induction blocks generalizing previous address fuel with
  | nil =>
      obtain ⟨fuel, rfl⟩ := Nat.exists_eq_succ_of_ne_zero
        (Nat.ne_zero_of_lt hfuel)
      rw [firstFree, findBlock, if_neg]
      · rfl
      · rintro ⟨-, hnext⟩
        rw [State.next, hend] at hnext
        exact hnext rfl
  | cons block blocks ih =>
      obtain ⟨hfirst, hheader, hlinked⟩ := hthreaded
      have hpositive : 0 < address + block.size := Nat.add_pos_left haddress _
      cases howner : block.owner with
      | some use =>
          have hskip : firstFree target address (block :: blocks) =
              firstFree target (address + block.size) blocks := by
            rw [firstFree, howner]
            rfl
          rw [hskip] at hfirst ⊢
          rw [ih ⟨hfirst, hlinked⟩ hpositive (Nat.lt_of_succ_lt hfuel), firstFit,
            howner]
          simp only [Option.isNone_some, Bool.false_eq_true, false_and, if_false,
            Option.elim_map]
          congr 1
          cases firstFit wanted blocks with
          | none => simp [lastFree, howner]
          | some hit => simp [lastFree, howner, Nat.add_assoc]
      | none =>
          obtain ⟨fuel, rfl⟩ := Nat.exists_eq_succ_of_ne_zero
            (Nat.ne_zero_of_lt hfuel)
          have hskip : firstFree target address (block :: blocks) = address := by
            rw [firstFree, howner]
            rfl
          rw [header_of_free howner] at hheader
          rw [hskip, findBlock, State.size, State.next, hheader, firstFit, howner]
          have hnext : firstFree target (address + block.size) blocks ≠ 0 := by
            rcases firstFree_cases target (address + block.size) blocks with
              heq | hmem
            · rwa [heq]
            · have hle := le_of_mem_starts hmem
              omega
          by_cases hlt : block.size < wanted
          · rw [if_pos ⟨hlt, hnext⟩, if_neg (fun h => absurd h.2 (by omega)),
              ih ⟨congrArg BlockLink.pxNextFreeBlock hheader, hlinked⟩ hpositive
                (Nat.lt_of_succ_lt_succ hfuel), Option.elim_map]
            congr 1
            cases firstFit wanted blocks with
            | none => simp [lastFree, howner]
            | some hit => simp [lastFree, howner, Nat.add_assoc]
          · rw [if_neg (fun h => hlt h.1), if_pos ⟨rfl, by omega⟩]
            rfl

/-! ## The block that is found -/

theorem subtract_of_le {a b : ℕ} (hle : b ≤ a) : subtract a b = a - b :=
  if_pos hle

section Take

variable {pxPreviousBlock pxBlock : ℕ}

theorem memory_setNext (entry next : ℕ) (state : State) :
    (state.setNext entry next).memory =
      Function.update state.memory entry ⟨next, state.size entry⟩ := rfl

theorem memory_setSize (entry size : ℕ) (state : State) :
    (state.setSize entry size).memory =
      Function.update state.memory entry ⟨state.next entry, size⟩ := rfl

theorem size_unlinked (hne : pxPreviousBlock ≠ pxBlock) (next : ℕ) :
    (state.setNext pxPreviousBlock next).size pxBlock = state.size pxBlock := by
  rw [State.size, memory_setNext, Function.update_of_ne hne.symm]
  rfl

/-- The block is cut, and what is left of it linked in its place. -/
theorem memory_splitBlock (hne : pxPreviousBlock ≠ pxBlock)
    (hnew : pxBlock + wanted ≠ pxPreviousBlock) (hpos : 0 < wanted)
    (hle : wanted ≤ state.size pxBlock)
    (hrest : heapMinimumBlockSize < state.size pxBlock - wanted) :
    (splitBlock pxPreviousBlock pxBlock wanted
        (state.setNext pxPreviousBlock (state.next pxBlock))).memory =
      Function.update (Function.update (Function.update state.memory
        pxPreviousBlock ⟨pxBlock + wanted, state.size pxPreviousBlock⟩)
        (pxBlock + wanted) ⟨state.next pxBlock, state.size pxBlock - wanted⟩)
        pxBlock ⟨state.next pxBlock, wanted⟩ := by
  have hself : pxBlock + wanted ≠ pxBlock := by omega
  rw [splitBlock, size_unlinked hne, subtract_of_le hle]
  dsimp only
  rw [if_pos hrest]
  simp only [memory_setNext, memory_setSize, State.next, State.size]
  generalize pxBlock + wanted = pxNewBlockLink at hnew hself ⊢
  funext entry
  by_cases hblock : entry = pxBlock
  · subst hblock
    simp [Function.update_of_ne, hne.symm, hself, hself.symm]
  · by_cases hlink : entry = pxNewBlockLink
    · subst hlink
      simp [Function.update_of_ne, hne, hnew, hself, hnew.symm]
    · by_cases hprevious : entry = pxPreviousBlock
      · subst hprevious
        simp [Function.update_of_ne, hne, hnew.symm]
      · simp [Function.update_of_ne, hblock, hlink, hprevious]

/-- Nothing is left of the block. -/
theorem splitBlock_of_small (hne : pxPreviousBlock ≠ pxBlock)
    (hle : wanted ≤ state.size pxBlock)
    (hrest : ¬ heapMinimumBlockSize < state.size pxBlock - wanted) :
    splitBlock pxPreviousBlock pxBlock wanted
        (state.setNext pxPreviousBlock (state.next pxBlock)) =
      state.setNext pxPreviousBlock (state.next pxBlock) := by
  rw [splitBlock, size_unlinked hne, subtract_of_le hle]
  exact if_neg hrest

theorem splitBlock_frame (pxPreviousBlock pxBlock wanted : ℕ) (state : State) :
    (splitBlock pxPreviousBlock pxBlock wanted state).pxEnd = state.pxEnd ∧
      (splitBlock pxPreviousBlock pxBlock wanted state).xFreeBytesRemaining =
        state.xFreeBytesRemaining := by
  rw [splitBlock]
  dsimp only
  split <;> exact ⟨rfl, rfl⟩

/-- A block is taken that was split off `state` as `split`. -/
theorem takeBlock_eq (pxPreviousBlock pxBlock wanted : ℕ) (state : State)
    {split : State}
    (hsplit : splitBlock pxPreviousBlock pxBlock wanted
      (state.setNext pxPreviousBlock (state.next pxBlock)) = split) :
    (takeBlock pxPreviousBlock pxBlock wanted state).pxEnd = state.pxEnd ∧
      (takeBlock pxPreviousBlock pxBlock wanted state).xFreeBytesRemaining =
          subtract state.xFreeBytesRemaining (split.size pxBlock) ∧
        (takeBlock pxPreviousBlock pxBlock wanted state).memory =
          Function.update split.memory pxBlock
            ⟨0, split.size pxBlock ||| 2 ^ 31⟩ := by
  obtain ⟨hend, hfree⟩ := splitBlock_frame pxPreviousBlock pxBlock wanted
    (state.setNext pxPreviousBlock (state.next pxBlock))
  rw [hsplit] at hend hfree
  rw [takeBlock]
  dsimp only
  rw [hsplit]
  refine ⟨hend, congrArg (subtract · _) hfree, ?_⟩
  change Function.update (Function.update split.memory pxBlock _) pxBlock _ = _
  rw [Function.update_idem]
  congr 1
  simp [State.size, heapAllocateBlock, memory_setSize]

end Take

theorem Fitted.carved {xWantedSize : ℕ}
    (hfitted : Fitted (front ++ ([block] ++ back))) (hfree : block.owner = none)
    (hle : wanted ≤ block.size) (hsize : heapMinimumBlockSize ≤ wanted)
    (haligned : wanted % portByteAlignment = 0)
    (hwanted : xWantedSize + xHeapStructSize ≤ wanted) :
    Fitted (front ++ (carve heapMinimumBlockSize wanted
      (Use.allocated xWantedSize) block ++ back)) := by
  have hmem : block ∈ front ++ ([block] ++ back) := by simp
  have hblock := hfitted.aligned block hmem
  have hparts : ∀ part ∈ carve heapMinimumBlockSize wanted
      (Use.allocated xWantedSize) block,
      heapMinimumBlockSize ≤ part.size ∧ part.size % portByteAlignment = 0 ∧
        ∀ size, part.owner = some (.allocated size) →
          size + xHeapStructSize ≤ part.size := by
    intro part hpart
    rw [carve] at hpart
    split at hpart
    · rename_i hrest
      rcases List.mem_pair.mp hpart with rfl | rfl
      · refine ⟨hsize, haligned, ?_⟩
        rintro size ⟨⟩
        exact hwanted
      · refine ⟨hrest.le, ?_, by simp⟩
        simp only [portByteAlignment] at haligned hblock ⊢
        omega
    · obtain rfl := List.mem_singleton.mp hpart
      refine ⟨hfitted.size block hmem, hblock, ?_⟩
      rintro size ⟨⟩
      exact hwanted.trans hle
  have hcases : ∀ part ∈ front ++ (carve heapMinimumBlockSize wanted
      (Use.allocated xWantedSize) block ++ back),
      part ∈ carve heapMinimumBlockSize wanted
        (Use.allocated xWantedSize) block ∨ part ∈ front ++ ([block] ++ back) := by
    intro part hpart
    simp only [List.mem_append] at hpart ⊢
    tauto
  constructor
  · intro part hpart
    exact (hcases part hpart).elim (fun h => (hparts part h).1)
      (hfitted.size part)
  · intro part hpart
    exact (hcases part hpart).elim (fun h => (hparts part h).2.1)
      (hfitted.aligned part)
  · intro part hpart
    exact (hcases part hpart).elim (fun h => (hparts part h).2.2)
      (hfitted.wanted part)
  · exact hfitted.coalesced.carve _ hfree

/-- A free block is given away. -/
theorem Represents.takeBlock {xWantedSize : ℕ}
    (hheap : Represents layout state (front ++ ([block] ++ back)))
    (haddress : layout.uxStartAddress + BlockList.total front = address)
    (hlast : lastFree layout.xStart layout.uxStartAddress front = previous)
    (hfree : block.owner = none) (hle : wanted ≤ block.size)
    (hsize : heapMinimumBlockSize ≤ wanted)
    (haligned : wanted % portByteAlignment = 0)
    (hwanted : xWantedSize + xHeapStructSize ≤ wanted) :
    Represents layout (Heap.takeBlock previous address wanted state)
      (front ++ (carve heapMinimumBlockSize wanted (.allocated xWantedSize)
        block ++ back)) := by
  have hpos : 0 < wanted := Nat.lt_of_lt_of_le (by decide) hsize
  have houtside := layout.xStart_outside
  have hregion := hheap.total
  rw [total_append, total_append, total_cons, total_nil] at hregion
  have hprevious := hheap.lastFree_outside
  rw [hlast, haddress] at hprevious
  have hne : previous ≠ address := by omega
  have hnew : address + wanted ≠ previous := by omega
  obtain ⟨-, hheader, -⟩ := (linked_append ..).mp hheap.linked
  rw [haddress, header_of_free hfree] at hheader
  have hsizeEq : state.size address = block.size :=
    congrArg BlockLink.xBlockSize hheader
  have hnextEq : state.next address =
      firstFree layout.uxEndAddress (address + block.size) back :=
    congrArg BlockLink.pxNextFreeBlock hheader
  have hcarved : freeTotal (front ++ (carve heapMinimumBlockSize wanted
      (Use.allocated xWantedSize) block ++ back)) =
        subtract state.xFreeBytesRemaining
          (carvedSize heapMinimumBlockSize wanted block) := by
    have hsplit := freeTotal_carve heapMinimumBlockSize
      (Use.allocated xWantedSize) hle
    rw [hheap.free]
    simp only [freeTotal_append, freeTotal_cons, freeTotal_nil,
      freeSize_of_free hfree]
    rw [subtract_of_le (by omega)]
    omega
  have hfitted := hheap.fitted.carved hfree hle hsize haligned hwanted
  by_cases hrest : heapMinimumBlockSize < block.size - wanted
  · have hparts : carve heapMinimumBlockSize wanted
        (Use.allocated xWantedSize) block =
          [⟨wanted, some (.allocated xWantedSize)⟩,
            ⟨block.size - wanted, none⟩] := if_pos hrest
    rw [carvedSize, if_pos hrest] at hcarved
    have hmemory := memory_splitBlock hne hnew hpos (hsizeEq ▸ hle)
      (hsizeEq ▸ hrest)
    obtain ⟨hend, hfreeBytes, hafter⟩ :=
      takeBlock_eq previous address wanted state rfl
    have hsplitSize : (splitBlock previous address wanted
        (state.setNext previous (state.next address))).size address = wanted := by
      rw [State.size, hmemory, Function.update_self]
    rw [hsplitSize, hmemory, Function.update_idem] at hafter
    rw [hsplitSize, ← hcarved] at hfreeBytes
    have hlt : address + wanted ≠ address := by omega
    refine hheap.replace haddress hlast hend ?_ ?_ ?_ ?_ hfreeBytes hfitted
    · rw [total_carve _ _ hle, total_cons, total_nil, Nat.add_zero]
    · rw [hafter, Function.update_of_ne hne, Function.update_of_ne hnew.symm,
        Function.update_self, hparts]
      rfl
    · intro entry hother hrange
      rw [total_cons, total_nil] at hrange
      rw [hafter, Function.update_of_ne (by omega),
        Function.update_of_ne (by omega), Function.update_of_ne hother]
    · rw [hparts, total_cons, total_nil, Nat.add_zero]
      refine ⟨?_, ?_, trivial⟩
      · rw [hafter, Function.update_self]
        rfl
      · rw [hafter, Function.update_of_ne hlt, Function.update_self, hnextEq,
          hsizeEq]
        change _ = header (firstFree _ (address + wanted + (block.size - wanted))
          []) _
        rw [firstFree]
        rfl
  · have hparts : carve heapMinimumBlockSize wanted
        (Use.allocated xWantedSize) block =
          [⟨block.size, some (.allocated xWantedSize)⟩] := if_neg hrest
    rw [carvedSize, if_neg hrest] at hcarved
    have hsplit := splitBlock_of_small hne (hsizeEq ▸ hle) (hsizeEq ▸ hrest)
    obtain ⟨hend, hfreeBytes, hafter⟩ :=
      takeBlock_eq previous address wanted state hsplit
    rw [size_unlinked hne, hsizeEq, memory_setNext, hnextEq] at hafter
    rw [size_unlinked hne, hsizeEq, ← hcarved] at hfreeBytes
    refine hheap.replace haddress hlast hend ?_ ?_ ?_ ?_ hfreeBytes hfitted
    · rw [total_carve _ _ hle, total_cons, total_nil, Nat.add_zero]
    · rw [hafter, Function.update_of_ne hne, Function.update_self, hparts]
      rfl
    · intro entry hother hrange
      rw [total_cons, total_nil] at hrange
      rw [hafter, Function.update_of_ne (by omega), Function.update_of_ne hother]
    · rw [hparts]
      refine ⟨?_, trivial⟩
      rw [hafter, Function.update_self]
      rfl

/-! ## The call -/

/-- There is a size for a request, or the size would overflow. -/
theorem blockSize_cases (xWantedSize : ℕ) :
    blockSize xWantedSize = 0 ∨
      heapMinimumBlockSize ≤ blockSize xWantedSize ∧
        blockSize xWantedSize % portByteAlignment = 0 ∧
          xWantedSize + xHeapStructSize ≤ blockSize xWantedSize := by
  rw [blockSize]
  split
  · split
    · exact .inl rfl
    · dsimp only
      split
      · split
        · exact .inl rfl
        · simp only [heapMinimumBlockSize, xHeapStructSize, portByteAlignment]
          omega
      · simp only [heapMinimumBlockSize, xHeapStructSize, portByteAlignment]
          at *
        omega
  · exact .inl rfl

/-- The blocks after a call for `xWantedSize` bytes that finds a block. -/
def allocated (xWantedSize : ℕ)
    (hit : List (Block Use) × Block Use × List (Block Use)) :
    List (Block Use) :=
  hit.1 ++ (carve heapMinimumBlockSize (blockSize xWantedSize)
    (.allocated xWantedSize) hit.2.1 ++ hit.2.2)

/-- The first block that fits is found and taken. -/
theorem Represents.pvPortMalloc_eq (hheap : Represents layout state blocks)
    (xWantedSize : ℕ) :
    Heap.pvPortMalloc layout xWantedSize state =
      some (if 0 < blockSize xWantedSize then
        (firstFit (blockSize xWantedSize) blocks).elim (0, state) fun hit =>
          (layout.uxStartAddress + BlockList.total hit.1 + xHeapStructSize,
            Heap.takeBlock (lastFree layout.xStart layout.uxStartAddress hit.1)
              (layout.uxStartAddress + BlockList.total hit.1)
              (blockSize xWantedSize) state)
        else (0, state)) := by
  have hstart := layout.start_bounds
  have hend := layout.end_bounds
  have hucHeap := layout.ucHeap_pos
  have hpxEnd : state.pxEnd ≠ 0 := by
    rw [hheap.pxEnd]
    omega
  rw [Heap.pvPortMalloc]
  dsimp only
  rw [if_neg hpxEnd, heapBlockSizeIsValid]
  by_cases hsize : 0 < blockSize xWantedSize
  · rw [if_pos hsize]
    by_cases hfits : blockSize xWantedSize ≤ state.xFreeBytesRemaining
    · have hvalid : (blockSize xWantedSize).testBit 31 = false := by
        refine Nat.testBit_lt_two_pow (hfits.trans_lt ?_)
        rw [hheap.free]
        exact (freeTotal_le_total blocks).trans_lt hheap.total_lt
      have hfirst : state.next layout.xStart =
          firstFree layout.uxEndAddress layout.uxStartAddress blocks :=
        congrArg BlockLink.pxNextFreeBlock hheap.xStart
      rw [hvalid, Bool.not_false, if_pos rfl, if_pos ⟨hsize, hfits⟩, hfirst,
        findBlock_eq hheap.threaded hheap.endMarker (by omega) (by omega)
          hheap.length_lt, Option.map_some]
      cases hfit : firstFit (blockSize xWantedSize) blocks with
      | none =>
          rw [Option.elim_none, Option.elim_none,
            if_neg (not_not.mpr hheap.pxEnd.symm)]
      | some hit =>
          obtain ⟨front, block, back⟩ := hit
          obtain ⟨rfl, hfree, -, -⟩ := firstFit_eq_some hfit
          have hregion := hheap.total
          rw [total_append, total_cons] at hregion
          have hpos := hheap.fitted.pos block (by simp)
          have hnext := hheap.next_lastFree
          rw [firstFree, hfree] at hnext
          have hother : layout.uxStartAddress + BlockList.total front ≠
              state.pxEnd := by
            rw [hheap.pxEnd]
            omega
          rw [Option.elim_some, Option.elim_some, if_pos hother]
          exact congrArg some (congrArg (· , _) (congrArg (· + _) hnext))
    · have hnone : firstFit (blockSize xWantedSize) blocks = none := by
        refine firstFit_eq_none_iff.mpr fun block hmem hfree => ?_
        have hle := size_le_freeTotal hmem hfree
        rw [hheap.free] at hfits
        omega
      have hnot : ¬ (0 < blockSize xWantedSize ∧
          blockSize xWantedSize ≤ state.xFreeBytesRemaining) :=
        fun h => hfits h.2
      rw [if_neg hnot, ite_self, hnone]
      rfl
  · have hnot : ¬ (0 < blockSize xWantedSize ∧
        blockSize xWantedSize ≤ state.xFreeBytesRemaining) :=
      fun h => hsize h.1
    rw [if_neg hnot, ite_self, if_neg hsize]

/-- `pvPortMalloc` gives away the first block that fits, and returns NULL only
if there is none or the request has no size. -/
theorem Represents.pvPortMalloc (hheap : Represents layout state blocks)
    (xWantedSize : ℕ) :
    (∃ hit after, 0 < blockSize xWantedSize ∧
      firstFit (blockSize xWantedSize) blocks = some hit ∧
        Heap.pvPortMalloc layout xWantedSize state =
          some (layout.uxStartAddress + BlockList.total hit.1 + xHeapStructSize,
            after) ∧
          Represents layout after (allocated xWantedSize hit)) ∨
      (blockSize xWantedSize = 0 ∨
        firstFit (blockSize xWantedSize) blocks = none) ∧
          Heap.pvPortMalloc layout xWantedSize state = some (0, state) := by
  rw [hheap.pvPortMalloc_eq]
  by_cases hsize : 0 < blockSize xWantedSize
  · rw [if_pos hsize]
    cases hfit : firstFit (blockSize xWantedSize) blocks with
    | none => exact .inr ⟨.inr rfl, rfl⟩
    | some hit =>
        obtain ⟨front, block, back⟩ := hit
        obtain ⟨rfl, hfree, hle, -⟩ := firstFit_eq_some hfit
        obtain ⟨hminimum, haligned, hwanted⟩ :=
          (blockSize_cases xWantedSize).resolve_left hsize.ne'
        exact .inl ⟨_, _, hsize, rfl, rfl,
          hheap.takeBlock rfl rfl hfree hle hminimum haligned hwanted⟩
  · rw [if_neg hsize]
    exact .inr ⟨.inl (Nat.eq_zero_of_not_pos hsize), rfl⟩

end PicoSched.Heap
