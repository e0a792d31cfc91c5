import PicoSched.Runtime.Heap

/-!
# What is in the memory of a program

The heap writes to the heads of its blocks and into free blocks only.  So what a
program has written stays until it writes there again or gives the memory back.
-/

namespace PicoSched.Heap

open BlockList Transition

variable {layout : Layout} {state : State} {program after : Program}
  {blocks front back : List (Block Use)} {block : Block Use}
  {memory : ℕ → BlockLink} {address entry : ℕ}

/-! ## Where the heap writes -/

theorem memory_splitBlock_of_ne (pxPreviousBlock pxBlock wanted : ℕ)
    (state : State) (hprevious : entry ≠ pxPreviousBlock)
    (hblock : entry ≠ pxBlock) (hnew : entry ≠ pxBlock + wanted) :
    (splitBlock pxPreviousBlock pxBlock wanted state).memory entry =
      state.memory entry := by
  rw [splitBlock]
  dsimp only
  split
  · simp only [memory_setNext, memory_setSize, Function.update_of_ne hprevious,
      Function.update_of_ne hblock, Function.update_of_ne hnew]
  · rfl

theorem memory_takeBlock_of_ne (pxPreviousBlock pxBlock wanted : ℕ)
    (state : State) (hprevious : entry ≠ pxPreviousBlock)
    (hblock : entry ≠ pxBlock) (hnew : entry ≠ pxBlock + wanted) :
    (takeBlock pxPreviousBlock pxBlock wanted state).memory entry =
      state.memory entry := by
  obtain ⟨-, -, hmemory⟩ := takeBlock_eq pxPreviousBlock pxBlock wanted state rfl
  rw [hmemory, Function.update_of_ne hblock,
    memory_splitBlock_of_ne _ _ _ _ hprevious hblock hnew, memory_setNext,
    Function.update_of_ne hprevious]

theorem memory_mergeBefore_of_ne (pxIterator pxBlockToInsert : ℕ)
    (state : State) (hiterator : entry ≠ pxIterator) :
    (mergeBefore pxIterator pxBlockToInsert state).2.memory entry =
      state.memory entry := by
  rw [mergeBefore]
  split
  · exact Function.update_of_ne hiterator ..
  · rfl

theorem memory_mergeBehind_of_ne (pxIterator pxBlockToInsert : ℕ)
    (state : State) (hblock : entry ≠ pxBlockToInsert) :
    (mergeBehind pxIterator pxBlockToInsert state).memory entry =
      state.memory entry := by
  rw [mergeBehind]
  dsimp only
  split
  · split
    · rw [memory_setNext, Function.update_of_ne hblock, memory_setSize,
        Function.update_of_ne hblock]
    · exact Function.update_of_ne hblock ..
  · exact Function.update_of_ne hblock ..

/-- The block that is inserted, or the one before it, which it becomes a part
of. -/
theorem mergeBefore_fst (pxIterator pxBlockToInsert : ℕ) (state : State) :
    (mergeBefore pxIterator pxBlockToInsert state).1 = pxIterator ∨
      (mergeBefore pxIterator pxBlockToInsert state).1 = pxBlockToInsert := by
  rw [mergeBefore]
  split
  · exact .inl rfl
  · exact .inr rfl

theorem memory_insert_of_ne {pxBlockToInsert pxIterator : ℕ} {inserted : State}
    (hposition : findPosition state pxBlockToInsert configTotalHeapSize
      layout.xStart = some pxIterator)
    (hinsert : prvInsertBlockIntoFreeList layout pxBlockToInsert state =
      some inserted)
    (hiterator : entry ≠ pxIterator) (hblock : entry ≠ pxBlockToInsert) :
    inserted.memory entry = state.memory entry := by
  rw [prvInsertBlockIntoFreeList, hposition] at hinsert
  obtain rfl := Option.some.inj hinsert
  have hne : entry ≠ (mergeBefore pxIterator pxBlockToInsert state).1 := by
    rcases mergeBefore_fst pxIterator pxBlockToInsert state with heq | heq
    · rwa [heq]
    · rwa [heq]
  have hlinked := (memory_mergeBehind_of_ne pxIterator _
    (mergeBefore pxIterator pxBlockToInsert state).2 hne).trans
      (memory_mergeBefore_of_ne pxIterator pxBlockToInsert state hiterator)
  dsimp only
  split
  · rw [memory_setNext, Function.update_of_ne hiterator, hlinked]
  · exact hlinked

/-! ## Calls -/

theorem Represents.ne_lastFree (hheap : Represents layout state (front ++ back))
    (hinside : Inside layout (front ++ back) address) :
    address ≠ lastFree layout.xStart layout.uxStartAddress front := by
  obtain ⟨hnotMem, hnotStart, -⟩ := hheap.not_head hinside
  rw [starts_append] at hnotMem
  rcases lastFree_cases layout.xStart layout.uxStartAddress front with heq | hmem
  · rwa [heq]
  · rintro rfl
    exact hnotMem (List.mem_append_left _ hmem)

theorem Represents.ne_start
    (hheap : Represents layout state (front ++ block :: back))
    (hinside : Inside layout (front ++ block :: back) address) :
    address ≠ layout.uxStartAddress + BlockList.total front := by
  obtain ⟨hnotMem, -, -⟩ := hheap.not_head hinside
  rintro rfl
  rw [starts_append] at hnotMem
  exact hnotMem (List.mem_append_right _ (List.mem_cons_self ..))

theorem Inside.not_free
    (hinside : Inside layout (front ++ block :: back) address)
    (hfree : block.owner = none) :
    address < layout.uxStartAddress + total front ∨
      layout.uxStartAddress + total front + block.size < address := by
  obtain ⟨front', block', back', hblocks, hused, hlower, hupper⟩ := hinside
  by_contra hwithin
  have hlower' : total front' < address - layout.uxStartAddress := by omega
  have heq := eq_of_overlap hblocks.symm hlower' (by omega) (by omega) (by omega)
  exact hused (heq ▸ hfree)

theorem Represents.memory_malloc (hheap : Represents layout state blocks)
    (hinside : Inside layout blocks address) {xWantedSize pv : ℕ}
    {after : State}
    (hcall : Heap.pvPortMalloc layout xWantedSize state = some (pv, after)) :
    after.memory address = state.memory address := by
  rw [hheap.pvPortMalloc_eq, Option.some.injEq] at hcall
  split at hcall
  · cases hfit : firstFit (blockSize xWantedSize) blocks with
    | none =>
        rw [hfit] at hcall
        cases hcall
        rfl
    | some hit =>
        obtain ⟨front, block, back⟩ := hit
        rw [hfit] at hcall
        obtain ⟨rfl, hfree, hle, -⟩ := firstFit_eq_some hfit
        cases hcall
        have hnotFree := hinside.not_free hfree
        refine memory_takeBlock_of_ne _ _ _ _ (hheap.ne_lastFree hinside)
          (hheap.ne_start hinside) ?_
        dsimp only
        omega
  · cases hcall
    rfl

theorem Represents.memory_release (hheap : Represents layout state blocks)
    (hinside : Inside layout blocks address) {pv : ℕ}
    (hpv : pv - xHeapStructSize ∈ starts layout.uxStartAddress blocks)
    {after : State} (hcall : vPortFreeRelease pv state = some after) :
    after.memory address = state.memory address := by
  obtain ⟨-, heq⟩ := Option.ite_none_right_eq_some.mp hcall
  obtain rfl := Option.some.inj heq
  refine Function.update_of_ne ?_ ..
  rintro rfl
  exact (hheap.not_head hinside).1 hpv

theorem Represents.memory_insert
    (hheap : Represents layout state (front ++ block :: back))
    (hinside : Inside layout (front ++ block :: back) address) {after : State}
    (hcall : vPortFreeInsert layout (layout.uxStartAddress +
      BlockList.total front + xHeapStructSize) state = some after) :
    after.memory address = state.memory address := by
  rw [vPortFreeInsert, Nat.add_sub_cancel] at hcall
  obtain ⟨inserted, hinsert, rfl⟩ := Option.map_eq_some_iff.mp hcall
  refine (memory_insert_of_ne (hheap.findPosition_eq rfl ?_) hinsert
    (hheap.ne_lastFree hinside) (hheap.ne_start hinside)).trans ?_
  · rfl
  · rfl

/-! ## Runs -/

/-- Only a write to the address itself changes what a program has there. -/
theorem memory_step (hreach : (machine layout memory).Reachable program)
    {action : Action} (hstep : step layout program action = some after)
    {area : ℕ × ℕ} (hmem : area ∈ program.owned) (harea : InArea address area)
    (hother : ∀ value, action ≠ .write address value) :
    after.heap.memory address = program.heap.memory address := by
  obtain ⟨blocks, hsound⟩ := (sound_of_reachable hreach).resolve_left
    fun hunused => by
      rw [hunused.2.1] at hmem
      cases hmem
  have hinside := hsound.inside hmem harea
  cases action with
  | malloc xWantedSize =>
      obtain ⟨⟨pv, heap⟩, hcall, rfl⟩ := Option.map_eq_some_iff.mp hstep
      exact hsound.represents.memory_malloc hinside hcall
  | release pv =>
      obtain ⟨hpv, hcall⟩ := Option.ite_none_right_eq_some.mp hstep
      obtain ⟨heap, hheap, rfl⟩ := Option.map_eq_some_iff.mp hcall
      obtain ⟨given, hgiven, rfl⟩ := List.mem_map.mp hpv
      obtain ⟨front, block, back, rfl, -, heq⟩ := hsound.block_of_owned hgiven
      refine hsound.represents.memory_release hinside ?_ hheap
      rw [heq, Nat.add_sub_cancel, starts_append]
      exact List.mem_append_right _ (List.mem_cons_self ..)
  | insert pv =>
      obtain ⟨hpv, hcall⟩ := Option.ite_none_right_eq_some.mp hstep
      obtain ⟨heap, hheap, rfl⟩ := Option.map_eq_some_iff.mp hcall
      obtain ⟨front, block, back, rfl, -, rfl⟩ := hsound.block_of_freeing hpv
      exact hsound.represents.memory_insert hinside hheap
  | write target value =>
      obtain ⟨-, heq⟩ := Option.ite_none_right_eq_some.mp hstep
      obtain rfl := Option.some.inj heq
      refine Function.update_of_ne ?_ ..
      rintro rfl
      exact hother value rfl

theorem owned_step {action : Action}
    (hstep : step layout program action = some after) {area : ℕ × ℕ}
    (hmem : area ∈ program.owned) (hother : action ≠ .release area.1) :
    area ∈ after.owned := by
  cases action with
  | malloc xWantedSize =>
      obtain ⟨⟨pv, heap⟩, -, rfl⟩ := Option.map_eq_some_iff.mp hstep
      dsimp only
      split
      · exact hmem
      · exact List.mem_cons_of_mem _ hmem
  | release pv =>
      obtain ⟨-, hcall⟩ := Option.ite_none_right_eq_some.mp hstep
      obtain ⟨heap, -, rfl⟩ := Option.map_eq_some_iff.mp hcall
      refine List.mem_filter.mpr ⟨hmem, decide_eq_true ?_⟩
      rintro rfl
      exact hother rfl
  | insert pv =>
      obtain ⟨-, hcall⟩ := Option.ite_none_right_eq_some.mp hstep
      obtain ⟨heap, -, rfl⟩ := Option.map_eq_some_iff.mp hcall
      exact hmem
  | write target value =>
      obtain ⟨-, heq⟩ := Option.ite_none_right_eq_some.mp hstep
      obtain rfl := Option.some.inj heq
      exact hmem

/-- What was written to an area that the program has is there as long as it
keeps the area and does not write there again, whatever else it gets and gives
back. -/
theorem reads_written {earlier later : List Action} {before : Program}
    {pv xWantedSize : ℕ} {value : BlockLink}
    (hbefore : (machine layout memory).Runs earlier before)
    (hmem : (pv, xWantedSize) ∈ before.owned)
    (harea : InArea address (pv, xWantedSize))
    (hruns : (machine layout memory).Runs
      (later ++ .write address value :: earlier) program)
    (hkept : ∀ action ∈ later, action ≠ .release pv ∧
      ∀ other, action ≠ .write address other) :
    (pv, xWantedSize) ∈ program.owned ∧
      program.heap.memory address = value := by
  induction later generalizing program with
  | nil =>
      cases hruns with
      | cons hruns hstep =>
          obtain rfl := hruns.unique hbefore
          obtain ⟨-, heq⟩ := Option.ite_none_right_eq_some.mp hstep
          obtain rfl := Option.some.inj heq
          exact ⟨hmem, Function.update_self ..⟩
  | cons action later ih =>
      cases hruns with
      | cons hruns hstep =>
          obtain ⟨⟨hnotReleased, hnotWritten⟩, hothers⟩ :=
            List.forall_mem_cons.mp hkept
          obtain ⟨howned, hvalue⟩ := ih hruns hothers
          exact ⟨owned_step hstep howned hnotReleased,
            (memory_step hruns.reachable hstep howned harea hnotWritten).trans
              hvalue⟩

/-- Something is written, another area given back and a third one got. -/
theorem writtenRun_reads : ∃ program : Program,
    (128, 40) ∈ program.owned ∧ program.heap.memory 136 = ⟨3, 4⟩ := by
  have hbefore : ((machine alignedLayout fun _ => ⟨0, 0⟩).after
      [.malloc 40, .malloc 100]).any
        (fun program => decide ((128, 40) ∈ program.owned)) = true := by decide
  have hafter : ((machine alignedLayout fun _ => ⟨0, 0⟩).after
      ([.malloc 24, .insert 16, .release 16] ++
        .write 136 ⟨3, 4⟩ :: [.malloc 40, .malloc 100])).any
          (fun _ => true) = true := by decide
  obtain ⟨before, hbeforeRuns, hmem⟩ := Machine.exists_runs _ _ _ hbefore
  obtain ⟨program, hruns, -⟩ := Machine.exists_runs _ _ _ hafter
  exact ⟨program, reads_written hbeforeRuns (of_decide_eq_true hmem) (by decide)
    hruns (by simp)⟩

end PicoSched.Heap
