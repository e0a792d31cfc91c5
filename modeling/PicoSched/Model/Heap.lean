import Mathlib.Algebra.Group.Nat.Defs
import Mathlib.Logic.Function.Basic
import PicoSched.Lib.Transition

/-!
# The heap

`heap_4.c`: blocks of memory with a `BlockLink_t` in front of each, the free ones
linked in the order of their addresses.  Assertions are compiled out, and so is
the heap protector.
-/

namespace PicoSched.Heap

open Transition

/-! ## Configuration -/

def configTotalHeapSize : ℕ := 10240

def portByteAlignment : ℕ := 8

/-- `sizeof( BlockLink_t )`, which is aligned. -/
def xHeapStructSize : ℕ := 8

def heapMinimumBlockSize : ℕ := xHeapStructSize * 2

def heapSizeMax : ℕ := 2 ^ 32 - 1

def heapAddWillOverflow (a b : ℕ) : Bool := heapSizeMax - b < a

/-- `heapBLOCK_ALLOCATED_BITMASK` is bit 31. -/
def heapBlockSizeIsValid (xBlockSize : ℕ) : Bool := !xBlockSize.testBit 31

/-- The difference of two values of type `size_t`. -/
def subtract (a b : ℕ) : ℕ := if b ≤ a then a - b else 2 ^ 32 - (b - a)

/-! ## Memory -/

/-- A `BlockLink_t`; the NULL pointer is 0. -/
structure BlockLink where
  pxNextFreeBlock : ℕ
  xBlockSize : ℕ
  deriving DecidableEq

/-- Where the linker has put the heap and the list head. -/
structure Layout where
  ucHeap : ℕ
  xStart : ℕ
  ucHeap_pos : 0 < ucHeap
  fits : ucHeap + configTotalHeapSize ≤ 2 ^ 32
  apart : xStart + xHeapStructSize ≤ ucHeap ∨
    ucHeap + configTotalHeapSize ≤ xStart

structure State where
  /-- What is in memory at an address, read as a `BlockLink_t`. -/
  memory : ℕ → BlockLink
  pxEnd : ℕ
  xFreeBytesRemaining : ℕ
  xMinimumEverFreeBytesRemaining : ℕ
  xNumberOfSuccessfulAllocations : ℕ
  xNumberOfSuccessfulFrees : ℕ

namespace State

def setBlock (address : ℕ) (block : BlockLink) (state : State) : State :=
  { state with memory := Function.update state.memory address block }

def setNext (address next : ℕ) (state : State) : State :=
  state.setBlock address
    { state.memory address with pxNextFreeBlock := next }

def setSize (address size : ℕ) (state : State) : State :=
  state.setBlock address { state.memory address with xBlockSize := size }

def next (address : ℕ) (state : State) : ℕ :=
  (state.memory address).pxNextFreeBlock

def size (address : ℕ) (state : State) : ℕ := (state.memory address).xBlockSize

end State

/-- `heapBLOCK_IS_ALLOCATED`. -/
def heapBlockIsAllocated (pxBlock : ℕ) (state : State) : Bool :=
  (state.size pxBlock).testBit 31

def heapAllocateBlock (pxBlock : ℕ) (state : State) : State :=
  state.setSize pxBlock (state.size pxBlock ||| 2 ^ 31)

def heapFreeBlock (pxBlock : ℕ) (state : State) : State :=
  state.setSize pxBlock (state.size pxBlock &&& (2 ^ 31 - 1))

/-! ## Functions -/

section Functions

variable (layout : Layout)

/-- The first address from `ucHeap` on that is aligned. -/
def Layout.uxStartAddress : ℕ :=
  if layout.ucHeap % portByteAlignment ≠ 0 then
    let address := layout.ucHeap + (portByteAlignment - 1)
    address - address % portByteAlignment
  else layout.ucHeap

def Layout.uxEndAddress : ℕ :=
  let xTotalHeapSize :=
    configTotalHeapSize - (layout.uxStartAddress - layout.ucHeap)
  let address := layout.uxStartAddress + xTotalHeapSize - xHeapStructSize
  address - address % portByteAlignment

def prvHeapInit (state : State) : State :=
  let first := layout.uxStartAddress
  let pxEnd := layout.uxEndAddress
  let xBlockSize := pxEnd - first
  let linked := ((state.setBlock layout.xStart ⟨first, 0⟩).setBlock pxEnd
    ⟨0, 0⟩).setBlock first ⟨pxEnd, xBlockSize⟩
  { linked with
    pxEnd := pxEnd
    xMinimumEverFreeBytesRemaining := xBlockSize
    xFreeBytesRemaining := xBlockSize }

/-- The size of the block for a request, 0 if there is none. -/
def blockSize (xWantedSize : ℕ) : ℕ :=
  if 0 < xWantedSize then
    if heapAddWillOverflow xWantedSize xHeapStructSize then 0
    else
      let size := xWantedSize + xHeapStructSize
      if size % portByteAlignment ≠ 0 then
        let xAdditionalRequiredSize :=
          portByteAlignment - size % portByteAlignment
        if heapAddWillOverflow size xAdditionalRequiredSize then 0
        else size + xAdditionalRequiredSize
      else size
  else 0

/-- The loop of `pvPortMalloc`: `pxPreviousBlock` and `pxBlock` at its end. -/
def findBlock (state : State) (xWantedSize : ℕ) :
    ℕ → ℕ → ℕ → Option (ℕ × ℕ)
  | 0, _, _ => none
  | fuel + 1, pxPreviousBlock, pxBlock =>
      if state.size pxBlock < xWantedSize ∧ state.next pxBlock ≠ 0 then
        findBlock state xWantedSize fuel pxBlock (state.next pxBlock)
      else some (pxPreviousBlock, pxBlock)

/-- A block is split if enough of it is left. -/
def splitBlock (pxPreviousBlock pxBlock xWantedSize : ℕ) (state : State) :
    State :=
  let rest := subtract (state.size pxBlock) xWantedSize
  if heapMinimumBlockSize < rest then
    let pxNewBlockLink := pxBlock + xWantedSize
    let sized := (state.setSize pxNewBlockLink rest).setSize pxBlock xWantedSize
    let linked := sized.setNext pxNewBlockLink (sized.next pxPreviousBlock)
    linked.setNext pxPreviousBlock pxNewBlockLink
  else state

/-- The block `pxBlock` is taken off the list and given away. -/
def takeBlock (pxPreviousBlock pxBlock xWantedSize : ℕ) (state : State) :
    State :=
  let unlinked := state.setNext pxPreviousBlock (state.next pxBlock)
  let split := splitBlock pxPreviousBlock pxBlock xWantedSize unlinked
  let free := subtract split.xFreeBytesRemaining (split.size pxBlock)
  let counted := { split with
    xFreeBytesRemaining := free
    xMinimumEverFreeBytesRemaining :=
      if free < split.xMinimumEverFreeBytesRemaining then free
      else split.xMinimumEverFreeBytesRemaining }
  let owned := (heapAllocateBlock pxBlock counted).setNext pxBlock 0
  { owned with
    xNumberOfSuccessfulAllocations :=
      (owned.xNumberOfSuccessfulAllocations + 1) % 2 ^ 32 }

/-- The pointer that is returned, and the heap. -/
def pvPortMalloc (xWantedSize : ℕ) (state : State) : Option (ℕ × State) :=
  let xWantedSize := blockSize xWantedSize
  let state := if state.pxEnd = 0 then prvHeapInit layout state else state
  if heapBlockSizeIsValid xWantedSize then
    if 0 < xWantedSize ∧ xWantedSize ≤ state.xFreeBytesRemaining then
      (findBlock state xWantedSize configTotalHeapSize layout.xStart
          (state.next layout.xStart)).map fun (pxPreviousBlock, pxBlock) =>
        if pxBlock ≠ state.pxEnd then
          (state.next pxPreviousBlock + xHeapStructSize,
            takeBlock pxPreviousBlock pxBlock xWantedSize state)
        else (0, state)
    else some (0, state)
  else some (0, state)

/-- The loop of `prvInsertBlockIntoFreeList`: `pxIterator` at its end. -/
def findPosition (state : State) (pxBlockToInsert : ℕ) : ℕ → ℕ → Option ℕ
  | 0, _ => none
  | fuel + 1, pxIterator =>
      if state.next pxIterator < pxBlockToInsert then
        findPosition state pxBlockToInsert fuel (state.next pxIterator)
      else some pxIterator

/-- The block is merged with the one before it, and the block that it is then a
part of is returned. -/
def mergeBefore (pxIterator pxBlockToInsert : ℕ) (state : State) :
    ℕ × State :=
  if pxIterator + state.size pxIterator = pxBlockToInsert then
    (pxIterator, state.setSize pxIterator
      (state.size pxIterator + state.size pxBlockToInsert))
  else (pxBlockToInsert, state)

/-- The block is merged with the one behind it, and linked to the next. -/
def mergeBehind (pxIterator pxBlockToInsert : ℕ) (state : State) : State :=
  let behind := state.next pxIterator
  if pxBlockToInsert + state.size pxBlockToInsert = behind then
    if behind ≠ state.pxEnd then
      let merged := state.setSize pxBlockToInsert
        (state.size pxBlockToInsert + state.size behind)
      merged.setNext pxBlockToInsert (merged.next behind)
    else state.setNext pxBlockToInsert state.pxEnd
  else state.setNext pxBlockToInsert behind

def prvInsertBlockIntoFreeList (pxBlockToInsert : ℕ) (state : State) :
    Option State :=
  (findPosition state pxBlockToInsert configTotalHeapSize layout.xStart).map
    fun pxIterator =>
      let (block, merged) := mergeBefore pxIterator pxBlockToInsert state
      let linked := mergeBehind pxIterator block merged
      if pxIterator ≠ block then linked.setNext pxIterator block else linked

/-- `vPortFree` up to `vTaskSuspendAll`: the block is no longer allocated.
Nothing happens to a block that is not allocated. -/
def vPortFreeRelease (pv : ℕ) (state : State) : Option State :=
  let pxLink := pv - xHeapStructSize
  if pv ≠ 0 ∧ heapBlockIsAllocated pxLink state ∧ state.next pxLink = 0 then
    some (heapFreeBlock pxLink state)
  else none

/-- `vPortFree` while it has suspended the scheduler. -/
def vPortFreeInsert (pv : ℕ) (state : State) : Option State :=
  let pxLink := pv - xHeapStructSize
  let counted := { state with
    xFreeBytesRemaining :=
      (state.xFreeBytesRemaining + state.size pxLink) % 2 ^ 32 }
  (prvInsertBlockIntoFreeList layout pxLink counted).map fun inserted =>
    { inserted with
      xNumberOfSuccessfulFrees :=
        (inserted.xNumberOfSuccessfulFrees + 1) % 2 ^ 32 }

end Functions

/-! ## Programs -/

/-- What the program has of the heap. -/
structure Program where
  heap : State
  /-- The pointers that it has got and not given back, each with the number of
  bytes it asked for. -/
  owned : List (ℕ × ℕ)
  /-- The pointers that are in `vPortFree`. -/
  freeing : List ℕ

inductive Action where
  | malloc (xWantedSize : ℕ)
  /-- `vPortFree` up to `vTaskSuspendAll`. -/
  | release (pv : ℕ)
  /-- The rest of `vPortFree`. -/
  | insert (pv : ℕ)
  /-- The program writes to memory that it owns. -/
  | write (address : ℕ) (value : BlockLink)
  deriving DecidableEq

/-- The eight bytes at the address have a part in the area. -/
def InArea (address : ℕ) (area : ℕ × ℕ) : Prop :=
  address % portByteAlignment = 0 ∧ area.1 ≤ address ∧
    address < area.1 + area.2

instance (address : ℕ) (area : ℕ × ℕ) : Decidable (InArea address area) :=
  inferInstanceAs (Decidable (_ ∧ _ ∧ _))

/-- Only pointers that were got are given back, and only memory that is owned is
written to. -/
def step (layout : Layout) (program : Program) : Action → Option Program
  | .malloc xWantedSize =>
      (pvPortMalloc layout xWantedSize program.heap).map fun (pv, heap) =>
        { program with
          heap := heap
          owned := if pv = 0 then program.owned
            else (pv, xWantedSize) :: program.owned }
  | .release pv =>
      if pv ∈ program.owned.map Prod.fst then
        (vPortFreeRelease pv program.heap).map fun heap =>
          { heap := heap
            owned := program.owned.filter fun area => area.1 ≠ pv
            freeing := pv :: program.freeing }
      else none
  | .insert pv =>
      if pv ∈ program.freeing then
        (vPortFreeInsert layout pv program.heap).map fun heap =>
          { program with
            heap := heap
            freeing := program.freeing.erase pv }
      else none
  | .write address value =>
      if ∃ area ∈ program.owned, InArea address area then
        some { program with heap := program.heap.setBlock address value }
      else none

/-- The heap before the first call, with whatever is in memory. -/
def machine (layout : Layout) (memory : ℕ → BlockLink) :
    Machine Program Action where
  start := ⟨⟨memory, 0, 0, 0, 0, 0⟩, [], []⟩
  step := step layout

end PicoSched.Heap
