import PicoSched.Runtime.HeapFree

/-!
# Programs on the heap

In every run of a program that writes only to memory it has got, the heap is cut
into blocks: those of the program, which do not overlap, and free ones, no two of
which are neighbours.
-/

namespace PicoSched.Heap

open BlockList Transition

variable {layout : Layout} {state : State} {program after : Program}
  {blocks front back : List (Block Use)} {block : Block Use}
  {memory : ℕ → BlockLink} {address : ℕ}

/-! ## Pointers -/

/-- The pointers to the blocks that are not free, with their use. -/
def pointers : ℕ → List (Block Use) → List (ℕ × Use)
  | _, [] => []
  | address, block :: blocks =>
      (block.owner.map fun use => (address + xHeapStructSize, use)).toList ++
        pointers (address + block.size) blocks

theorem pointers_append (address : ℕ) (front back : List (Block Use)) :
    pointers address (front ++ back) =
      pointers address front ++ pointers (address + total front) back := by
  induction front generalizing address with
  | nil => rfl
  | cons block front ih =>
      rw [List.cons_append, pointers, pointers, ih, total_cons, Nat.add_assoc,
        List.append_assoc]

theorem pointers_of_free {rest : List (Block Use)} (hfree : block.owner = none) :
    pointers address (block :: rest) = pointers (address + block.size) rest := by
  rw [pointers, hfree]
  rfl

theorem pointers_of_use {use : Use} {rest : List (Block Use)}
    (howner : block.owner = some use) :
    pointers address (block :: rest) =
      (address + xHeapStructSize, use) ::
        pointers (address + block.size) rest := by
  rw [pointers, howner]
  rfl

theorem pointers_push (address : ℕ) (block : Block Use)
    (blocks : List (Block Use)) :
    pointers address (push block blocks) = pointers address (block :: blocks) := by
  cases blocks with
  | nil => rfl
  | cons next blocks =>
      rw [push]
      split
      · rename_i hfree
        rw [pointers_of_free (Option.isNone_iff_eq_none.mp hfree.1),
          pointers_of_free (Option.isNone_iff_eq_none.mp hfree.2),
          pointers_of_free rfl, Nat.add_assoc]
      · rfl

theorem pointers_coalesce (address : ℕ) (blocks : List (Block Use)) :
    pointers address (coalesce blocks) = pointers address blocks := by
  induction blocks generalizing address with
  | nil => rfl
  | cons block blocks ih =>
      rw [coalesce_cons, pointers_push, pointers, pointers, ih]

theorem exists_of_mem_pointers {pointer : ℕ × Use}
    (hmem : pointer ∈ pointers address blocks) :
    ∃ front block back, blocks = front ++ block :: back ∧
      block.owner = some pointer.2 ∧
        pointer.1 = address + total front + xHeapStructSize := by
  induction blocks generalizing address with
  | nil => cases hmem
  | cons head blocks ih =>
      rw [pointers, List.mem_append] at hmem
      rcases hmem with hhead | hrest
      · obtain ⟨use, howner, heq⟩ :=
          Option.map_eq_some_iff.mp (Option.mem_toList.mp hhead)
        subst heq
        exact ⟨[], head, blocks, rfl, howner, rfl⟩
      · obtain ⟨front, block, back, rfl, howner, haddress⟩ := ih hrest
        refine ⟨head :: front, block, back, rfl, howner, ?_⟩
        rw [haddress, total_cons, Nat.add_assoc address]

/-- The bytes a block has been got for. -/
def Use.wanted : Use → ℕ
  | .allocated xWantedSize => xWantedSize
  | .released => 0

theorem Fitted.wanted_le (hfitted : Fitted blocks) :
    ∀ block ∈ blocks, ∀ use, block.owner = some use →
      use.wanted + xHeapStructSize ≤ block.size := by
  intro block hmem use howner
  cases use with
  | allocated xWantedSize => exact hfitted.wanted block hmem _ howner
  | released =>
      exact Nat.le_trans (by decide) (hfitted.size block hmem)

/-- The areas follow each other, with room for the heads of the blocks. -/
theorem pairwise_pointers (hwanted : ∀ block ∈ blocks, ∀ use,
    block.owner = some use → use.wanted + xHeapStructSize ≤ block.size)
    (address : ℕ) :
    (pointers address blocks).Pairwise fun pointer other =>
      pointer.1 + pointer.2.wanted + xHeapStructSize ≤ other.1 := by
  induction blocks generalizing address with
  | nil => exact .nil
  | cons block blocks ih =>
      obtain ⟨hblock, hblocks⟩ := List.forall_mem_cons.mp hwanted
      have hrest := ih hblocks (address + block.size)
      cases howner : block.owner with
      | none => rwa [pointers_of_free howner]
      | some use =>
          rw [pointers_of_use howner]
          refine List.pairwise_cons.mpr ⟨fun other hmem => ?_, hrest⟩
          obtain ⟨front, -, -, -, -, hother⟩ := exists_of_mem_pointers hmem
          have hle := hblock use howner
          rw [hother]
          dsimp only
          omega

theorem nodup_pointers (hwanted : ∀ block ∈ blocks, ∀ use,
    block.owner = some use → use.wanted + xHeapStructSize ≤ block.size)
    (address : ℕ) : ((pointers address blocks).map Prod.fst).Nodup := by
  refine List.pairwise_map.mpr ((pairwise_pointers hwanted address).imp ?_)
  intro pointer other hle
  simp only [xHeapStructSize] at hle
  omega

/-- The areas do not overlap. -/
def Apart (pointer other : ℕ × Use) : Prop :=
  pointer.1 + pointer.2.wanted ≤ other.1 ∨ other.1 + other.2.wanted ≤ pointer.1

theorem pairwise_apart (hwanted : ∀ block ∈ blocks, ∀ use,
    block.owner = some use → use.wanted + xHeapStructSize ≤ block.size)
    (address : ℕ) : (pointers address blocks).Pairwise Apart :=
  (pairwise_pointers hwanted address).imp fun hle =>
    .inl (Nat.le_of_add_right_le hle)

/-! ## Ownership -/

/-- What the program has and what is in `vPortFree`. -/
def Program.uses (program : Program) : List (ℕ × Use) :=
  (program.owned.map fun area => (area.1, Use.allocated area.2)) ++
    program.freeing.map fun pv => (pv, Use.released)

/-- The heap is cut into the blocks, and those that are not free are those of
the program. -/
structure Sound (layout : Layout) (program : Program)
    (blocks : List (Block Use)) : Prop where
  represents : Represents layout program.heap blocks
  uses : program.uses.Perm (pointers layout.uxStartAddress blocks)

theorem Sound.nodup (hsound : Sound layout program blocks) :
    (program.uses.map Prod.fst).Nodup :=
  (hsound.uses.map Prod.fst).nodup_iff.mpr
    (nodup_pointers hsound.represents.fitted.wanted_le _)

theorem Sound.block_of_owned (hsound : Sound layout program blocks)
    {pv xWantedSize : ℕ} (hmem : (pv, xWantedSize) ∈ program.owned) :
    ∃ front block back, blocks = front ++ block :: back ∧
      block.owner = some (.allocated xWantedSize) ∧
        pv = layout.uxStartAddress + total front + xHeapStructSize :=
  exists_of_mem_pointers (hsound.uses.mem_iff.mp
    (List.mem_append_left _ (List.mem_map_of_mem hmem)))

theorem Sound.block_of_freeing (hsound : Sound layout program blocks)
    {pv : ℕ} (hmem : pv ∈ program.freeing) :
    ∃ front block back, blocks = front ++ block :: back ∧
      block.owner = some .released ∧
        pv = layout.uxStartAddress + total front + xHeapStructSize :=
  exists_of_mem_pointers (hsound.uses.mem_iff.mp
    (List.mem_append_right _ (List.mem_map_of_mem hmem)))

/-- The pointer is taken from the areas of the program. -/
theorem perm_filter {owned : List (ℕ × ℕ)} {pv xWantedSize : ℕ}
    (hnodup : (owned.map Prod.fst).Nodup) (hmem : (pv, xWantedSize) ∈ owned) :
    owned.Perm ((pv, xWantedSize) :: owned.filter fun area => area.1 ≠ pv) := by
  obtain ⟨before, behind, rfl⟩ := List.append_of_mem hmem
  rw [List.map_append, List.map_cons] at hnodup
  have hmiddle := List.perm_middle.nodup_iff.mp hnodup
  obtain ⟨hnotMem, -⟩ := List.nodup_cons.mp hmiddle
  have hkeep : ∀ area ∈ before ++ behind, area.1 ≠ pv := by
    rintro area harea rfl
    rw [← List.map_append] at hnotMem
    exact hnotMem (List.mem_map.mpr ⟨area, harea, rfl⟩)
  have hfilter : (before ++ (pv, xWantedSize) :: behind).filter
      (fun area => area.1 ≠ pv) = before ++ behind := by
    rw [List.filter_append, List.filter_cons_of_neg (by simp),
      ← List.filter_append]
    exact List.filter_eq_self.mpr fun area harea =>
      decide_eq_true (hkeep area harea)
  rw [hfilter]
  exact List.perm_middle

/-! ## Calls -/

theorem pointers_replace {new : List (Block Use)} (front : List (Block Use))
    (htotal : total new = block.size) (back : List (Block Use)) :
    pointers address (front ++ (new ++ back)) =
      pointers address front ++ (pointers (address + total front) new ++
        pointers (address + total front + block.size) back) := by
  rw [pointers_append, pointers_append, htotal]

theorem pointers_carve (xWantedSize wanted : ℕ) (block : Block Use) :
    pointers address (carve heapMinimumBlockSize wanted
      (.allocated xWantedSize) block) =
        [(address + xHeapStructSize, .allocated xWantedSize)] := by
  rw [carve]
  split <;> rfl

/-- `pvPortMalloc` returns, and the block it gives away is one of the free
ones. -/
theorem Sound.malloc (hsound : Sound layout program blocks)
    (xWantedSize : ℕ) :
    ∃ after, step layout program (.malloc xWantedSize) = some after ∧
      ∃ blocks, Sound layout after blocks := by
  obtain ⟨hheap, huses⟩ := hsound
  have hstart := layout.start_bounds
  have hucHeap := layout.ucHeap_pos
  rcases hheap.pvPortMalloc xWantedSize with
    ⟨⟨front, block, back⟩, heap, -, hfit, hcall, hafter⟩ | ⟨-, hcall⟩
  · have hnull : layout.uxStartAddress + total front + xHeapStructSize ≠ 0 := by
      omega
    refine ⟨_, congrArg (Option.map _) hcall, _, hafter, ?_⟩
    obtain ⟨rfl, hfree, hle, -⟩ := firstFit_eq_some hfit
    rw [pointers_append, pointers_of_free hfree] at huses
    rw [allocated, pointers_replace front (total_carve _ _ hle), pointers_carve]
    dsimp only
    rw [if_neg hnull]
    exact (huses.cons _).trans List.perm_middle.symm
  · exact ⟨program, congrArg (Option.map _) hcall, blocks, hheap, huses⟩

/-- The first half of `vPortFree` finds the mark of a block that is owned. -/
theorem Sound.release (hsound : Sound layout program blocks) {pv : ℕ}
    (hmem : pv ∈ program.owned.map Prod.fst) :
    ∃ after, step layout program (.release pv) = some after ∧
      ∃ blocks, Sound layout after blocks := by
  have hnodup := hsound.nodup
  obtain ⟨⟨pv, xWantedSize⟩, harea, rfl⟩ := List.mem_map.mp hmem
  obtain ⟨front, block, back, rfl, howner, hpv⟩ := hsound.block_of_owned harea
  obtain ⟨heap, hcall, hafter⟩ := hsound.represents.release rfl howner
  dsimp only at hmem hpv ⊢
  rw [← hpv] at hcall
  refine ⟨_, (if_pos hmem).trans (congrArg (Option.map _) hcall), _, hafter, ?_⟩
  have huses := hsound.uses
  rw [Program.uses, List.map_append, List.map_map] at hnodup
  have howned := (perm_filter (List.nodup_append.mp hnodup).1 harea).map
    fun area => (area.1, Use.allocated area.2)
  rw [pointers_append, pointers_of_use howner, ← hpv] at huses
  have hothers := ((howned.append_right _).symm.trans huses).trans
    List.perm_middle
  have htotal : total [(⟨block.size, some .released⟩ : Block Use)] =
      block.size := by simp
  rw [pointers_replace front htotal, pointers_of_use rfl, ← hpv]
  refine List.perm_middle.trans ?_
  exact (hothers.cons_inv.cons _).trans List.perm_middle.symm

/-- The second half of `vPortFree`. -/
theorem Sound.insert (hsound : Sound layout program blocks) {pv : ℕ}
    (hmem : pv ∈ program.freeing) :
    ∃ after, step layout program (.insert pv) = some after ∧
      ∃ blocks, Sound layout after blocks := by
  obtain ⟨front, block, back, rfl, howner, hpv⟩ := hsound.block_of_freeing hmem
  obtain ⟨heap, hcall, hafter⟩ := hsound.represents.insert rfl howner
  rw [← hpv] at hcall
  refine ⟨_, (if_pos hmem).trans (congrArg (Option.map _) hcall), _, hafter, ?_⟩
  have huses := hsound.uses
  have hfreeing := (List.perm_cons_erase hmem).map fun pv => (pv, Use.released)
  rw [pointers_append, pointers_of_use howner, ← hpv] at huses
  have hothers := (List.perm_middle.symm.trans
    ((hfreeing.append_left _).symm.trans huses)).trans List.perm_middle
  rw [pointers_coalesce, pointers_append, pointers_of_free rfl]
  exact hothers.cons_inv

/-- The address is in a block that is not free, behind its head. -/
def Inside (layout : Layout) (blocks : List (Block Use)) (address : ℕ) : Prop :=
  ∃ front block back, blocks = front ++ block :: back ∧ block.owner ≠ none ∧
    layout.uxStartAddress + total front < address ∧
      address < layout.uxStartAddress + total front + block.size

theorem Sound.inside (hsound : Sound layout program blocks)
    {area : ℕ × ℕ} (hmem : area ∈ program.owned)
    (harea : InArea address area) : Inside layout blocks address := by
  obtain ⟨front, block, back, rfl, howner, hpv⟩ := hsound.block_of_owned hmem
  obtain ⟨-, hle, hlt⟩ := harea
  have hwanted := hsound.represents.fitted.wanted block (by simp) _ howner
  refine ⟨front, block, back, rfl, ?_, ?_, by omega⟩
  · rw [howner]
    exact Option.some_ne_none _
  · simp only [xHeapStructSize] at hpv
    omega

/-- Neither the list nor a head of a block is in such a place. -/
theorem Represents.not_head (hheap : Represents layout state blocks)
    (hinside : Inside layout blocks address) :
    address ∉ starts layout.uxStartAddress blocks ∧
      address ≠ layout.xStart ∧ address ≠ layout.uxEndAddress := by
  obtain ⟨front, block, back, rfl, -, hlower, hupper⟩ := hinside
  have hregion := hheap.total
  rw [total_append, total_cons] at hregion
  have houtside := layout.xStart_outside
  refine ⟨?_, by omega, by omega⟩
  rw [starts_append, List.mem_append, starts, List.mem_cons]
  rintro (hfront | rfl | hback)
  · have hbefore := lt_of_mem_starts hheap.pos_front hfront
    omega
  · exact hlower.false
  · have hbehind := le_of_mem_starts hback
    omega

/-- A program that writes to its own memory does not change the blocks. -/
theorem Sound.write (hsound : Sound layout program blocks)
    {area : ℕ × ℕ} (hmem : area ∈ program.owned) (harea : InArea address area)
    (value : BlockLink) :
    Sound layout { program with heap := program.heap.setBlock address value }
      blocks := by
  obtain ⟨hnotMem, hnotStart, hnotEnd⟩ :=
    hsound.represents.not_head (hsound.inside hmem harea)
  obtain ⟨hheap, huses⟩ := hsound
  refine ⟨⟨hheap.pxEnd, hheap.total, ?_, ?_, ?_, hheap.free, hheap.fitted⟩, huses⟩
  · exact (Function.update_of_ne hnotStart.symm ..).trans hheap.xStart
  · refine hheap.linked.congr fun entry hentry => Function.update_of_ne ?_ ..
    rintro rfl
    exact hnotMem hentry
  · exact (Function.update_of_ne hnotEnd.symm ..).trans hheap.endMarker

/-! ## Runs -/

/-- The first call cuts the heap into one free block. -/
theorem pvPortMalloc_of_start (hend : state.pxEnd = 0) (xWantedSize : ℕ) :
    pvPortMalloc layout xWantedSize state =
      pvPortMalloc layout xWantedSize (prvHeapInit layout state) := by
  have hne : (prvHeapInit layout state).pxEnd ≠ 0 := by
    have hend := layout.end_bounds
    have hstart := layout.start_bounds
    have hucHeap := layout.ucHeap_pos
    change layout.uxEndAddress ≠ 0
    omega
  rw [pvPortMalloc, pvPortMalloc, if_pos hend, if_neg hne]

theorem malloc_of_start (hend : program.heap.pxEnd = 0) (xWantedSize : ℕ) :
    step layout program (.malloc xWantedSize) =
      step layout { program with heap := prvHeapInit layout program.heap }
        (.malloc xWantedSize) :=
  congrArg (Option.map _) (pvPortMalloc_of_start hend xWantedSize)

/-- Before the first call the program has nothing. -/
def Unused (program : Program) : Prop :=
  program.heap.pxEnd = 0 ∧ program.owned = [] ∧ program.freeing = []

theorem Unused.malloc (hunused : Unused program) (layout : Layout)
    (xWantedSize : ℕ) :
    ∃ after, step layout program (.malloc xWantedSize) = some after ∧
      ∃ blocks, Sound layout after blocks := by
  obtain ⟨hend, howned, hfreeing⟩ := hunused
  rw [malloc_of_start hend]
  refine Sound.malloc ⟨represents_prvHeapInit layout program.heap, ?_⟩ _
  rw [Program.uses, howned, hfreeing]
  exact .nil

/-- In every run the heap is cut into blocks, and the program has those that are
not free. -/
theorem sound_of_reachable (hreach : (machine layout memory).Reachable program) :
    Unused program ∨ ∃ blocks, Sound layout program blocks := by
  refine hreach.invariant (fun program =>
    Unused program ∨ ∃ blocks, Sound layout program blocks)
      (.inl ⟨rfl, rfl, rfl⟩) ?_
  intro program action after _ _ hstep hbefore
  cases action with
  | malloc xWantedSize =>
      have hcall : ∃ after, step layout program (.malloc xWantedSize) =
          some after ∧ ∃ blocks, Sound layout after blocks := by
        rcases hbefore with hunused | ⟨blocks, hsound⟩
        · exact hunused.malloc layout xWantedSize
        · exact hsound.malloc xWantedSize
      obtain ⟨after', hstep', hafter⟩ := hcall
      obtain rfl := Option.some.inj (hstep.symm.trans hstep')
      exact .inr hafter
  | release pv =>
      obtain ⟨hmem, -⟩ := Option.ite_none_right_eq_some.mp hstep
      rcases hbefore with hunused | ⟨blocks, hsound⟩
      · rw [hunused.2.1] at hmem
        cases hmem
      · obtain ⟨after', hstep', hafter⟩ := hsound.release hmem
        obtain rfl := Option.some.inj (hstep.symm.trans hstep')
        exact .inr hafter
  | insert pv =>
      obtain ⟨hmem, -⟩ := Option.ite_none_right_eq_some.mp hstep
      rcases hbefore with hunused | ⟨blocks, hsound⟩
      · rw [hunused.2.2] at hmem
        cases hmem
      · obtain ⟨after', hstep', hafter⟩ := hsound.insert hmem
        obtain rfl := Option.some.inj (hstep.symm.trans hstep')
        exact .inr hafter
  | write address value =>
      obtain ⟨⟨area, hmem, harea⟩, heq⟩ :=
        Option.ite_none_right_eq_some.mp hstep
      obtain rfl := Option.some.inj heq
      rcases hbefore with hunused | ⟨blocks, hsound⟩
      · rw [hunused.2.1] at hmem
        cases hmem
      · exact .inr ⟨blocks, hsound.write hmem harea value⟩

/-- The areas that the program has got are aligned, lie in the heap and do not
overlap. -/
theorem areas_apart (hreach : (machine layout memory).Reachable program) :
    (program.owned.Pairwise fun area other =>
        area.1 + area.2 ≤ other.1 ∨ other.1 + other.2 ≤ area.1) ∧
      ∀ area ∈ program.owned, area.1 % portByteAlignment = 0 ∧
        layout.ucHeap ≤ area.1 ∧
          area.1 + area.2 ≤ layout.ucHeap + configTotalHeapSize := by
  rcases sound_of_reachable hreach with hunused | ⟨blocks, hsound⟩
  · rw [hunused.2.1]
    exact ⟨.nil, by simp⟩
  · have hheap := hsound.represents
    constructor
    · have hapart := (hsound.uses.pairwise_iff fun happart => Or.symm happart).mpr
        (pairwise_apart hheap.fitted.wanted_le layout.uxStartAddress)
      exact List.pairwise_map.mp (List.pairwise_append.mp hapart).1
    · intro area hmem
      obtain ⟨front, block, back, rfl, howner, hpv⟩ :=
        hsound.block_of_owned hmem
      have hwanted := hheap.fitted.wanted block (by simp) _ howner
      have hfront := total_mod fun block hblock =>
        hheap.fitted.aligned block (List.mem_append_left _ hblock)
      have hregion := hheap.total
      rw [total_append, total_cons] at hregion
      have hstart := layout.start_bounds
      have hend := layout.end_bounds
      simp only [portByteAlignment, xHeapStructSize, configTotalHeapSize]
        at hfront hpv hwanted ⊢
      omega

/-- Every call returns: the loops end, and the marks of the blocks are intact. -/
theorem calls_return (hreach : (machine layout memory).Reachable program) :
    (∀ xWantedSize, step layout program (.malloc xWantedSize) ≠ none) ∧
      (∀ area ∈ program.owned, step layout program (.release area.1) ≠ none) ∧
        ∀ pv ∈ program.freeing, step layout program (.insert pv) ≠ none := by
  rcases sound_of_reachable hreach with hunused | ⟨blocks, hsound⟩
  · refine ⟨fun xWantedSize => ?_, ?_, ?_⟩
    · obtain ⟨after, hstep, -⟩ := hunused.malloc layout xWantedSize
      rw [hstep]
      exact Option.some_ne_none after
    · rw [hunused.2.1]
      simp
    · rw [hunused.2.2]
      simp
  · refine ⟨fun xWantedSize => ?_, fun area hmem => ?_, fun pv hmem => ?_⟩
    · obtain ⟨after, hstep, -⟩ := hsound.malloc xWantedSize
      rw [hstep]
      exact Option.some_ne_none after
    · obtain ⟨after, hstep, -⟩ := hsound.release (List.mem_map_of_mem hmem)
      rw [hstep]
      exact Option.some_ne_none after
    · obtain ⟨after, hstep, -⟩ := hsound.insert hmem
      rw [hstep]
      exact Option.some_ne_none after

/-- `pvPortMalloc` returns NULL if the request has no size or no free block is
large enough, and only then. -/
theorem malloc_null_iff (hreach : (machine layout memory).Reachable program)
    (hused : program.heap.pxEnd ≠ 0) (xWantedSize : ℕ) :
    ∃ blocks, Sound layout program blocks ∧
      ∃ pv heap, pvPortMalloc layout xWantedSize program.heap =
        some (pv, heap) ∧
          (pv = 0 ↔ blockSize xWantedSize = 0 ∨ ∀ block ∈ blocks,
            block.owner = none → block.size < blockSize xWantedSize) := by
  obtain ⟨blocks, hsound⟩ := (sound_of_reachable hreach).resolve_left
    fun hunused => hused hunused.1
  refine ⟨blocks, hsound, ?_⟩
  rcases hsound.represents.pvPortMalloc xWantedSize with
    ⟨hit, heap, hpos, hfit, hcall, -⟩ | ⟨hnone, hcall⟩
  · refine ⟨_, heap, hcall, iff_of_false (Nat.succ_ne_zero _) ?_⟩
    rw [← firstFit_eq_none_iff, hfit]
    rintro (hzero | hnone)
    · omega
    · cases hnone
  · rw [firstFit_eq_none_iff] at hnone
    exact ⟨0, program.heap, hcall, iff_of_true rfl hnone⟩

theorem free_of_pointers_nil {blocks : List (Block Use)}
    (hnil : pointers address blocks = []) :
    ∀ block ∈ blocks, block.owner = none := by
  induction blocks generalizing address with
  | nil => simp
  | cons block blocks ih =>
      rw [pointers, List.append_eq_nil_iff] at hnil
      obtain ⟨hblock, hblocks⟩ := hnil
      rw [Option.toList_eq_nil_iff, Option.map_eq_none_iff] at hblock
      exact List.forall_mem_cons.mpr ⟨hblock, ih hblocks⟩

/-- Free blocks without neighbours are one block. -/
theorem eq_singleton_of_free (hcoalesced : Coalesced blocks)
    (hfree : ∀ block ∈ blocks, block.owner = none) (hpos : 0 < total blocks) :
    blocks = [⟨total blocks, none⟩] := by
  cases blocks with
  | nil => exact absurd hpos (Nat.lt_irrefl 0)
  | cons block rest =>
      obtain ⟨hblock, hrest⟩ := List.forall_mem_cons.mp hfree
      cases rest with
      | nil => simp [← hblock]
      | cons next rest =>
          obtain ⟨hnext, -⟩ := List.isChain_cons_cons.mp hcoalesced
          exact absurd (hrest next (List.mem_cons_self ..)) (hnext hblock)

/-- Once everything is given back the heap is whole again: nothing is lost and
nothing is cut off. -/
theorem whole_of_released (hreach : (machine layout memory).Reachable program)
    (hused : program.heap.pxEnd ≠ 0) (howned : program.owned = [])
    (hfreeing : program.freeing = []) :
    program.heap.xFreeBytesRemaining =
        layout.uxEndAddress - layout.uxStartAddress ∧
      ∀ xWantedSize, ∃ pv heap,
        pvPortMalloc layout xWantedSize program.heap = some (pv, heap) ∧
          (pv ≠ 0 ↔ 0 < blockSize xWantedSize ∧ blockSize xWantedSize ≤
            layout.uxEndAddress - layout.uxStartAddress) := by
  obtain ⟨blocks, hheap, huses⟩ := (sound_of_reachable hreach).resolve_left
    fun hunused => hused hunused.1
  rw [Program.uses, howned, hfreeing] at huses
  have hend := layout.end_bounds
  have htotal := hheap.total
  have hwhole := eq_singleton_of_free hheap.fitted.coalesced
    (free_of_pointers_nil (List.nil_perm.mp huses)) (by omega)
  have hsize : total blocks = layout.uxEndAddress - layout.uxStartAddress := by
    omega
  rw [hsize] at hwhole
  constructor
  · rw [hheap.free, hwhole, freeTotal_cons, freeTotal_nil]
    rfl
  · intro xWantedSize
    rcases hheap.pvPortMalloc xWantedSize with
      ⟨hit, heap, hpos, hfit, hcall, -⟩ | ⟨hnone, hcall⟩
    · refine ⟨_, heap, hcall, iff_of_true (Nat.succ_ne_zero _) ⟨hpos, ?_⟩⟩
      by_contra hlarge
      have hnone : firstFit (blockSize xWantedSize) blocks = none := by
        rw [firstFit_eq_none_iff, hwhole, List.forall_mem_singleton]
        exact fun _ => not_le.mp hlarge
      rw [hnone] at hfit
      cases hfit
    · refine ⟨0, program.heap, hcall, iff_of_false (not_not.mpr rfl) ?_⟩
      rintro ⟨hpos, hle⟩
      rw [firstFit_eq_none_iff, hwhole, List.forall_mem_singleton] at hnone
      rcases hnone with hzero | hsmall
      · omega
      · exact absurd hle (not_le.mpr (hsmall rfl))

/-- A heap that needs no alignment. -/
def alignedLayout : Layout where
  ucHeap := 8
  xStart := 20000
  ucHeap_pos := by decide
  fits := by decide
  apart := by decide

/-- Three areas are got, the middle one is given back and another one takes its
place. -/
def reuseRun : List Action :=
  [.malloc 100, .malloc 200, .malloc 300, .write 16 ⟨7, 7⟩, .release 128,
    .malloc 40, .insert 128, .malloc 40]

theorem reuseRun_reaches : ∃ program,
    (machine alignedLayout fun _ => ⟨0, 0⟩).Reachable program ∧
      program.owned = [(128, 40), (648, 40), (336, 300), (16, 100)] ∧
        program.heap.pxEnd ≠ 0 := by
  have hexec : ((machine alignedLayout fun _ => ⟨0, 0⟩).exec (fun _ _ => True)
      reuseRun (machine alignedLayout fun _ => ⟨0, 0⟩).start).any
        (fun program => decide (program.owned =
          [(128, 40), (648, 40), (336, 300), (16, 100)] ∧
            program.heap.pxEnd ≠ 0)) = true := by decide
  obtain ⟨program, hreach, hprogram⟩ := Machine.exists_reaches_of_exec _ _ hexec
  exact ⟨program, hreach.reachable, of_decide_eq_true hprogram⟩

theorem reuseRun_apart : ∃ program : Program,
    program.owned = [(128, 40), (648, 40), (336, 300), (16, 100)] ∧
      program.owned.Pairwise (fun area other =>
        area.1 + area.2 ≤ other.1 ∨ other.1 + other.2 ≤ area.1) := by
  obtain ⟨program, hreach, howned, -⟩ := reuseRun_reaches
  exact ⟨program, howned, (areas_apart hreach).1⟩

theorem reuseRun_returns : ∃ program : Program,
    program.owned = [(128, 40), (648, 40), (336, 300), (16, 100)] ∧
      step alignedLayout program (.release 336) ≠ none := by
  obtain ⟨program, hreach, howned, -⟩ := reuseRun_reaches
  refine ⟨program, howned, (calls_return hreach).2.1 (336, 300) ?_⟩
  rw [howned]
  decide

theorem reuseRun_null : ∃ program : Program, program.heap.pxEnd ≠ 0 ∧
    ∃ blocks, Sound alignedLayout program blocks ∧
      ∃ pv heap, pvPortMalloc alignedLayout 9000 program.heap =
        some (pv, heap) ∧
          (pv = 0 ↔ blockSize 9000 = 0 ∨ ∀ block ∈ blocks,
            block.owner = none → block.size < blockSize 9000) := by
  obtain ⟨program, hreach, -, hused⟩ := reuseRun_reaches
  exact ⟨program, hused, malloc_null_iff hreach hused 9000⟩

/-- Two areas are got and given back. -/
def returnRun : List Action :=
  [.malloc 100, .malloc 200, .release 16, .insert 16, .release 128, .insert 128]

theorem returnRun_whole : ∃ program : Program, program.heap.pxEnd ≠ 0 ∧
    program.owned = [] ∧ program.freeing = [] ∧
      program.heap.xFreeBytesRemaining = 10232 := by
  have hexec : ((machine alignedLayout fun _ => ⟨0, 0⟩).exec (fun _ _ => True)
      returnRun (machine alignedLayout fun _ => ⟨0, 0⟩).start).any
        (fun program => decide (program.heap.pxEnd ≠ 0 ∧ program.owned = [] ∧
          program.freeing = [])) = true := by decide
  obtain ⟨program, hreach, hprogram⟩ := Machine.exists_reaches_of_exec _ _ hexec
  obtain ⟨hused, howned, hfreeing⟩ := of_decide_eq_true hprogram
  exact ⟨program, hused, howned, hfreeing,
    (whole_of_released hreach.reachable hused howned hfreeing).1⟩

end PicoSched.Heap
