import PicoSched.Lib.BlockList
import PicoSched.Model.Heap

/-!
# The blocks of the heap

What is in memory when the heap is cut into given blocks: the free blocks are
linked in the order of their addresses, and every block has its size in front of
it.  Memory between those places belongs to the program.
-/

namespace PicoSched.Heap

open BlockList

/-- Who has a block that is not free. -/
inductive Use where
  /-- The program, which asked for `xWantedSize` bytes. -/
  | allocated (xWantedSize : ℕ)
  /-- A call of `vPortFree` that is not done. -/
  | released
  deriving DecidableEq

variable {memory memory' : ℕ → BlockLink} {target target' previous address : ℕ}
  {blocks front back : List (Block Use)} {block : Block Use}

/-- The `BlockLink_t` in front of a block, with the next free block. -/
def header (next : ℕ) (block : Block Use) : BlockLink :=
  match block.owner with
  | none => ⟨next, block.size⟩
  | some (.allocated _) => ⟨0, block.size ||| 2 ^ 31⟩
  | some .released => ⟨0, block.size⟩

/-- The blocks from an address on, the last free one linked to `target`. -/
def Linked (memory : ℕ → BlockLink) (target : ℕ) :
    ℕ → List (Block Use) → Prop
  | _, [] => True
  | address, block :: blocks =>
      memory address =
          header (firstFree target (address + block.size) blocks) block ∧
        Linked memory target (address + block.size) blocks

theorem linked_append (target address : ℕ) (front back : List (Block Use)) :
    Linked memory target address (front ++ back) ↔
      Linked memory (firstFree target (address + total front) back) address
          front ∧
        Linked memory target (address + total front) back := by
  induction front generalizing address with
  | nil => exact (and_iff_right trivial).symm
  | cons block front ih =>
      rw [List.cons_append, Linked, Linked, ih, firstFree_append, total_cons,
        Nat.add_assoc, and_assoc]

/-- Only the places in front of the blocks matter. -/
theorem Linked.congr (hlinked : Linked memory target address blocks)
    (hsame : ∀ entry ∈ starts address blocks, memory' entry = memory entry) :
    Linked memory' target address blocks := by
  induction blocks generalizing address with
  | nil => trivial
  | cons block blocks ih =>
      obtain ⟨hheader, hrest⟩ := hlinked
      obtain ⟨hfirst, hothers⟩ := List.forall_mem_cons.mp hsame
      exact ⟨hfirst.trans hheader, ih hrest hothers⟩

theorem header_of_used (hused : block.owner ≠ none) :
    header target block = header target' block := by
  cases howner : block.owner with
  | none => exact absurd howner hused
  | some use => cases use <;> simp [header, howner]

theorem header_of_free (hfree : block.owner = none) :
    header target block = ⟨target, block.size⟩ := by
  rw [header, hfree]

/-- Blocks that are all used are linked to nothing. -/
theorem Linked.of_used (hlinked : Linked memory target address blocks)
    (hused : ∀ block ∈ blocks, block.owner ≠ none) :
    Linked memory target' address blocks := by
  induction blocks generalizing address with
  | nil => trivial
  | cons block blocks ih =>
      obtain ⟨hheader, hrest⟩ := hlinked
      obtain ⟨hblock, hblocks⟩ := List.forall_mem_cons.mp hused
      exact ⟨hheader.trans (header_of_used hblock), ih hrest hblocks⟩

/-- Blocks that are linked from a place before them. -/
structure Threaded (memory : ℕ → BlockLink) (target previous address : ℕ)
    (blocks : List (Block Use)) : Prop where
  first : (memory previous).pxNextFreeBlock = firstFree target address blocks
  linked : Linked memory target address blocks

theorem Threaded.next_lastFree
    (hthreaded : Threaded memory target previous address blocks) :
    (memory (lastFree previous address blocks)).pxNextFreeBlock = target := by
  obtain ⟨hfirst, hlinked⟩ := hthreaded
  rcases used_or_last blocks with hused | ⟨front, block, back, rfl, hfree, hused⟩
  · rw [lastFree_of_used hused, hfirst, firstFree_of_used hused]
  · obtain ⟨-, hheader, -⟩ := (linked_append ..).mp hlinked
    rw [lastFree_of_last hfree hused, hheader, header_of_free hfree]
    exact firstFree_of_used hused

/-- The last free block gets a new target. -/
theorem Threaded.relink
    (hthreaded : Threaded memory target previous address blocks)
    (hpos : ∀ block ∈ blocks, 0 < block.size)
    (hprevious : previous ∉ starts address blocks)
    (hlast : memory' (lastFree previous address blocks) =
      { memory (lastFree previous address blocks) with
        pxNextFreeBlock := target' })
    (hsame : ∀ entry ∈ previous :: starts address blocks,
      entry ≠ lastFree previous address blocks →
        memory' entry = memory entry) :
    Threaded memory' target' previous address blocks := by
  obtain ⟨hfirst, hlinked⟩ := hthreaded
  obtain ⟨hsamePrevious, hsame⟩ := List.forall_mem_cons.mp hsame
  rcases used_or_last blocks with hused | ⟨front, block, back, rfl, hfree, hused⟩
  · rw [lastFree_of_used hused] at hlast hsame
    refine ⟨?_, (hlinked.of_used hused).congr fun entry hmem =>
      hsame entry hmem ?_⟩
    · rw [hlast, firstFree_of_used hused]
    · rintro rfl
      exact hprevious hmem
  · have hpos' := hpos block (by simp)
    rw [lastFree_of_last hfree hused] at hlast hsame hsamePrevious
    rw [starts_append] at hsame hprevious
    obtain ⟨hfront, hheader, hback⟩ := (linked_append ..).mp hlinked
    have hnext : firstFree target (address + total front) (block :: back) =
        firstFree target' (address + total front) (block :: back) := by
      rw [firstFree, firstFree, hfree]
      rfl
    constructor
    · rw [hsamePrevious, hfirst, firstFree_append, firstFree_append, hnext]
      rintro rfl
      exact hprevious (List.mem_append_right _ (List.mem_cons_self ..))
    · refine (linked_append ..).mpr ⟨?_, ?_, ?_⟩
      · rw [← hnext]
        refine hfront.congr fun entry hmem =>
          hsame entry (List.mem_append_left _ hmem) ?_
        have hlt := lt_of_mem_starts (fun other hother =>
          hpos other (List.mem_append_left _ hother)) hmem
        exact hlt.ne
      · rw [hlast, hheader, header_of_free hfree, header_of_free hfree]
        dsimp only
        rw [firstFree_of_used hused]
      · refine (hback.of_used hused).congr fun entry hmem =>
          hsame entry (List.mem_append_right _ (List.mem_cons_of_mem _ hmem)) ?_
        have hle := le_of_mem_starts hmem
        omega

/-! ## The heap -/

/-- The blocks are aligned and large enough for what was asked for, and no free
ones are neighbours. -/
structure Fitted (blocks : List (Block Use)) : Prop where
  size : ∀ block ∈ blocks, heapMinimumBlockSize ≤ block.size
  aligned : ∀ block ∈ blocks, block.size % portByteAlignment = 0
  wanted : ∀ block ∈ blocks, ∀ xWantedSize,
    block.owner = some (.allocated xWantedSize) →
      xWantedSize + xHeapStructSize ≤ block.size
  coalesced : Coalesced blocks

/-- The heap is cut into the blocks. -/
structure Represents (layout : Layout) (state : State)
    (blocks : List (Block Use)) : Prop where
  pxEnd : state.pxEnd = layout.uxEndAddress
  total : layout.uxStartAddress + total blocks = layout.uxEndAddress
  xStart : state.memory layout.xStart =
    ⟨firstFree layout.uxEndAddress layout.uxStartAddress blocks, 0⟩
  linked : Linked state.memory layout.uxEndAddress layout.uxStartAddress blocks
  endMarker : state.memory layout.uxEndAddress = ⟨0, 0⟩
  free : state.xFreeBytesRemaining = freeTotal blocks
  fitted : Fitted blocks

theorem Fitted.pos (hfitted : Fitted blocks) :
    ∀ block ∈ blocks, 0 < block.size :=
  fun block hmem => Nat.lt_of_lt_of_le (by decide) (hfitted.size block hmem)

namespace Layout

variable (layout : Layout)

theorem start_bounds : layout.ucHeap ≤ layout.uxStartAddress ∧
    layout.uxStartAddress < layout.ucHeap + 8 ∧
      layout.uxStartAddress % 8 = 0 := by
  rw [uxStartAddress, portByteAlignment]
  by_cases haligned : layout.ucHeap % 8 = 0
  · rw [if_neg (not_not.mpr haligned)]
    omega
  · rw [if_pos haligned]
    dsimp only
    omega

theorem end_bounds : layout.uxStartAddress + 10224 ≤ layout.uxEndAddress ∧
    layout.uxEndAddress + 8 ≤ layout.ucHeap + 10240 ∧
      layout.uxEndAddress % 8 = 0 := by
  have hstart := layout.start_bounds
  simp only [uxEndAddress, portByteAlignment, xHeapStructSize,
    configTotalHeapSize]
  omega

/-- The list head is no place in the heap. -/
theorem xStart_outside :
    layout.xStart < layout.uxStartAddress ∨
      layout.uxEndAddress < layout.xStart := by
  have hstart := layout.start_bounds
  have hend := layout.end_bounds
  have hapart := layout.apart
  simp only [xHeapStructSize, configTotalHeapSize] at hapart
  omega

end Layout

variable {layout : Layout} {state : State}

namespace Represents

theorem threaded (hheap : Represents layout state blocks) :
    Threaded state.memory layout.uxEndAddress layout.xStart
      layout.uxStartAddress blocks :=
  ⟨congrArg BlockLink.pxNextFreeBlock hheap.xStart, hheap.linked⟩

theorem total_lt (hheap : Represents layout state blocks) :
    BlockList.total blocks < 2 ^ 31 := by
  have htotal := hheap.total
  have hend := layout.end_bounds
  have hstart := layout.start_bounds
  omega

theorem threaded_front (hheap : Represents layout state (front ++ back)) :
    Threaded state.memory (firstFree layout.uxEndAddress
        (layout.uxStartAddress + BlockList.total front) back)
      layout.xStart layout.uxStartAddress front := by
  obtain ⟨hfront, -⟩ := (linked_append ..).mp hheap.linked
  refine ⟨?_, hfront⟩
  rw [hheap.xStart, firstFree_append]

/-- The last free block before a place is linked to the first one behind it. -/
theorem next_lastFree (hheap : Represents layout state (front ++ back)) :
    state.next (lastFree layout.xStart layout.uxStartAddress front) =
      firstFree layout.uxEndAddress
        (layout.uxStartAddress + BlockList.total front) back :=
  hheap.threaded_front.next_lastFree

theorem pos_front (hheap : Represents layout state (front ++ back)) :
    ∀ block ∈ front, 0 < block.size :=
  fun block hmem => hheap.fitted.pos block (List.mem_append_left _ hmem)

theorem lastFree_outside (hheap : Represents layout state (front ++ back)) :
    lastFree layout.xStart layout.uxStartAddress front = layout.xStart ∨
      lastFree layout.xStart layout.uxStartAddress front <
        layout.uxStartAddress + BlockList.total front :=
  (lastFree_cases ..).imp_right fun hmem =>
    lt_of_mem_starts hheap.pos_front hmem

/-- Some blocks are replaced by others.  Memory changes between the first and
the last of them, and in the link that leads to them. -/
theorem replace {old new : List (Block Use)} {after : State}
    (hheap : Represents layout state (front ++ (old ++ back)))
    (haddress : layout.uxStartAddress + BlockList.total front = address)
    (hlast : lastFree layout.xStart layout.uxStartAddress front = previous)
    (hend : after.pxEnd = state.pxEnd)
    (htotal : BlockList.total new = BlockList.total old)
    (hlink : after.memory previous =
      ⟨firstFree layout.uxEndAddress address (new ++ back),
        state.size previous⟩)
    (hsame : ∀ entry, entry ≠ previous →
      entry < address ∨ address + BlockList.total old ≤ entry →
        after.memory entry = state.memory entry)
    (hnew : Linked after.memory (firstFree layout.uxEndAddress
      (address + BlockList.total old) back) address new)
    (hfree : after.xFreeBytesRemaining = freeTotal (front ++ (new ++ back)))
    (hfitted : Fitted (front ++ (new ++ back))) :
    Represents layout after (front ++ (new ++ back)) := by
  have houtside := layout.xStart_outside
  have hregion := hheap.total
  rw [total_append, total_append] at hregion
  have hpos := hheap.pos_front
  have hnotMem : layout.xStart ∉ starts layout.uxStartAddress front := by
    intro hmem
    have hle := le_of_mem_starts hmem
    have hlt := lt_of_mem_starts hpos hmem
    omega
  have hprevious := hheap.lastFree_outside
  rw [hlast, haddress] at hprevious
  obtain ⟨-, hrest⟩ := (linked_append ..).mp hheap.linked
  obtain ⟨-, hback⟩ := (linked_append ..).mp hrest
  have hthreaded : Threaded after.memory
      (firstFree layout.uxEndAddress address (new ++ back)) layout.xStart
      layout.uxStartAddress front := by
    refine hheap.threaded_front.relink hpos hnotMem ?_ ?_
    · rw [hlast]
      exact hlink
    · intro entry hmem hne
      rw [hlast] at hne
      refine hsame entry hne ?_
      rcases List.mem_cons.mp hmem with rfl | hmem
      · omega
      · have hlt := lt_of_mem_starts hpos hmem
        omega
  have hsize : (after.memory layout.xStart).xBlockSize = 0 := by
    by_cases heq : layout.xStart = previous
    · rw [heq, hlink, ← heq, State.size, hheap.xStart]
    · rw [hsame _ heq (by omega), hheap.xStart]
  constructor
  · rw [hend, hheap.pxEnd]
  · rw [total_append, total_append, htotal]
    exact hregion
  · rw [firstFree_append, haddress, ← hthreaded.first, ← hsize]
  · refine (linked_append ..).mpr ⟨?_, (linked_append ..).mpr ⟨?_, ?_⟩⟩
    · rw [haddress]
      exact hthreaded.linked
    · rw [haddress, htotal]
      exact hnew
    · rw [htotal]
      refine hback.congr fun entry hmem => ?_
      have hle := le_of_mem_starts hmem
      have hlt := lt_of_mem_starts (fun block hblock => hheap.fitted.pos block
        (List.mem_append_right _ (List.mem_append_right _ hblock))) hmem
      exact hsame entry (by omega) (by omega)
  · rw [hsame _ (by omega) (by omega)]
    exact hheap.endMarker
  · exact hfree
  · exact hfitted

/-- There are fewer blocks than bytes. -/
theorem length_lt (hheap : Represents layout state blocks) :
    blocks.length < configTotalHeapSize := by
  have hle : ∀ parts : List (Block Use), (∀ part ∈ parts, 0 < part.size) →
      parts.length ≤ BlockList.total parts := by
    intro parts hpos
    induction parts with
    | nil => exact Nat.le_refl 0
    | cons part parts ih =>
        obtain ⟨hpart, hparts⟩ := List.forall_mem_cons.mp hpos
        have hlength := ih hparts
        rw [List.length_cons, total_cons]
        omega
  have hblocks := hle blocks hheap.fitted.pos
  have htotal := hheap.total
  have hstart := layout.start_bounds
  have hend := layout.end_bounds
  rw [configTotalHeapSize]
  omega

end Represents

end PicoSched.Heap
