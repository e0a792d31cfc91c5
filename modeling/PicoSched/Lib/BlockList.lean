import Mathlib.Data.List.Chain

/-!
# Blocks of a region

A region of memory cut into blocks that follow each other.  A block is free or
has an owner.  First fit looks for the first free block that is large enough;
coalescing joins free blocks that are neighbours.
-/

namespace PicoSched.BlockList

/-- A block, free when it has no owner. -/
structure Block (ω : Type*) where
  size : ℕ
  owner : Option ω
  deriving DecidableEq

variable {ω : Type*} {blocks front back : List (Block ω)} {block other : Block ω}
  {wanted : ℕ}

def total : List (Block ω) → ℕ
  | [] => 0
  | block :: blocks => block.size + total blocks

@[simp] theorem total_nil : total ([] : List (Block ω)) = 0 := rfl

@[simp] theorem total_cons (block : Block ω) (blocks : List (Block ω)) :
    total (block :: blocks) = block.size + total blocks := rfl

@[simp] theorem total_append (front back : List (Block ω)) :
    total (front ++ back) = total front + total back := by
  induction front with
  | nil => exact (Nat.zero_add _).symm
  | cons block front ih =>
      rw [List.cons_append, total_cons, ih, total_cons, Nat.add_assoc]

theorem total_mod {unit : ℕ}
    (haligned : ∀ block ∈ blocks, block.size % unit = 0) :
    total blocks % unit = 0 := by
  induction blocks with
  | nil => exact Nat.zero_mod unit
  | cons block blocks ih =>
      obtain ⟨hblock, hblocks⟩ := List.forall_mem_cons.mp haligned
      rw [total_cons, Nat.add_mod, hblock, ih hblocks]
      exact Nat.zero_mod unit

/-- The part of a block that is free. -/
def Block.freeSize (block : Block ω) : ℕ :=
  match block.owner with
  | none => block.size
  | some _ => 0

def freeTotal : List (Block ω) → ℕ
  | [] => 0
  | block :: blocks => block.freeSize + freeTotal blocks

@[simp] theorem freeTotal_nil : freeTotal ([] : List (Block ω)) = 0 := rfl

@[simp] theorem freeTotal_cons (block : Block ω) (blocks : List (Block ω)) :
    freeTotal (block :: blocks) = block.freeSize + freeTotal blocks := rfl

@[simp] theorem freeTotal_append (front back : List (Block ω)) :
    freeTotal (front ++ back) = freeTotal front + freeTotal back := by
  induction front with
  | nil => exact (Nat.zero_add _).symm
  | cons block front ih =>
      rw [List.cons_append, freeTotal_cons, ih, freeTotal_cons, Nat.add_assoc]

theorem freeSize_of_free (hfree : block.owner = none) :
    block.freeSize = block.size := by
  rw [Block.freeSize, hfree]

theorem freeSize_of_owner {owner : ω} (howner : block.owner = some owner) :
    block.freeSize = 0 := by
  rw [Block.freeSize, howner]

theorem freeSize_le_size (block : Block ω) : block.freeSize ≤ block.size := by
  cases howner : block.owner with
  | none => exact (freeSize_of_free howner).le
  | some owner =>
      rw [freeSize_of_owner howner]
      exact Nat.zero_le _

theorem freeTotal_le_total (blocks : List (Block ω)) :
    freeTotal blocks ≤ total blocks := by
  induction blocks with
  | nil => exact Nat.le_refl 0
  | cons block blocks ih =>
      rw [freeTotal_cons, total_cons]
      exact Nat.add_le_add (freeSize_le_size block) ih

theorem size_le_freeTotal (hmem : block ∈ blocks) (hfree : block.owner = none) :
    block.size ≤ freeTotal blocks := by
  obtain ⟨front, back, rfl⟩ := List.append_of_mem hmem
  rw [freeTotal_append, freeTotal_cons, freeSize_of_free hfree]
  omega

/-! ## First fit -/

/-- The first free block of the wanted size, with the blocks before and behind
it. -/
def firstFit (wanted : ℕ) :
    List (Block ω) → Option (List (Block ω) × Block ω × List (Block ω))
  | [] => none
  | block :: blocks =>
      if block.owner.isNone ∧ wanted ≤ block.size then some ([], block, blocks)
      else (firstFit wanted blocks).map fun (front, hit, back) =>
        (block :: front, hit, back)

theorem firstFit_eq_some (hfit : firstFit wanted blocks =
    some (front, block, back)) :
    blocks = front ++ block :: back ∧ block.owner = none ∧
      wanted ≤ block.size ∧
        ∀ other ∈ front, other.owner = none → other.size < wanted := by
  induction blocks generalizing front with
  | nil => cases hfit
  | cons head blocks ih =>
      rw [firstFit] at hfit
      split at hfit
      · rename_i hhead
        cases hfit
        exact ⟨rfl, Option.isNone_iff_eq_none.mp hhead.1, hhead.2, by simp⟩
      · rename_i hhead
        obtain ⟨⟨front', hit, back'⟩, hrest, heq⟩ :=
          Option.map_eq_some_iff.mp hfit
        cases heq
        obtain ⟨rfl, hfree, hle, hfront⟩ := ih hrest
        refine ⟨rfl, hfree, hle, ?_⟩
        intro other hmem howner
        rcases List.mem_cons.mp hmem with rfl | hmem
        · rw [howner] at hhead
          simpa using hhead
        · exact hfront other hmem howner

theorem firstFit_eq_none_iff : firstFit wanted blocks = none ↔
    ∀ block ∈ blocks, block.owner = none → block.size < wanted := by
  induction blocks with
  | nil => simp [firstFit]
  | cons head blocks ih =>
      rw [firstFit]
      by_cases hhead : head.owner.isNone ∧ wanted ≤ head.size
      · rw [if_pos hhead]
        refine iff_of_false (by simp) fun hsmall => ?_
        have hlt := hsmall head (List.mem_cons_self ..)
          (Option.isNone_iff_eq_none.mp hhead.1)
        omega
      · rw [if_neg hhead, Option.map_eq_none_iff, ih, List.forall_mem_cons]
        refine (and_iff_right fun hfree => ?_).symm
        rw [hfree] at hhead
        simpa using hhead

/-- A block is given to an owner; what it does not need stays free if it is
larger than `minimum`. -/
def carve (minimum wanted : ℕ) (owner : ω) (block : Block ω) : List (Block ω) :=
  if minimum < block.size - wanted then
    [⟨wanted, some owner⟩, ⟨block.size - wanted, none⟩]
  else [⟨block.size, some owner⟩]

/-- The size of the block that the owner gets. -/
def carvedSize (minimum wanted : ℕ) (block : Block ω) : ℕ :=
  if minimum < block.size - wanted then wanted else block.size

theorem total_carve (minimum : ℕ) (owner : ω) (hle : wanted ≤ block.size) :
    total (carve minimum wanted owner block) = block.size := by
  rw [carve]
  split
  · simp only [total_cons, total_nil, Nat.add_zero]
    exact Nat.add_sub_cancel' hle
  · simp

theorem freeTotal_carve (minimum : ℕ) (owner : ω) (hle : wanted ≤ block.size) :
    freeTotal (carve minimum wanted owner block) +
      carvedSize minimum wanted block = block.size := by
  rw [carve, carvedSize]
  split
  · simp only [freeTotal_cons, freeTotal_nil, Block.freeSize]
    omega
  · simp [Block.freeSize]

/-! ## Coalescing -/

/-- No two neighbours are free. -/
def Coalesced (blocks : List (Block ω)) : Prop :=
  blocks.IsChain fun block next => block.owner = none → next.owner ≠ none

/-- A block in front of blocks that are coalesced. -/
def push (block : Block ω) : List (Block ω) → List (Block ω)
  | [] => [block]
  | next :: blocks =>
      if block.owner.isNone ∧ next.owner.isNone then
        ⟨block.size + next.size, none⟩ :: blocks
      else block :: next :: blocks

def coalesce (blocks : List (Block ω)) : List (Block ω) := blocks.foldr push []

@[simp] theorem coalesce_cons (block : Block ω) (blocks : List (Block ω)) :
    coalesce (block :: blocks) = push block (coalesce blocks) := rfl

theorem total_push (block : Block ω) (blocks : List (Block ω)) :
    total (push block blocks) = block.size + total blocks := by
  cases blocks with
  | nil => rfl
  | cons next blocks =>
      rw [push]
      split
      · simp [Nat.add_assoc]
      · simp

theorem freeTotal_push (block : Block ω) (blocks : List (Block ω)) :
    freeTotal (push block blocks) = block.freeSize + freeTotal blocks := by
  cases blocks with
  | nil => simp [push]
  | cons next blocks =>
      rw [push]
      split
      · rename_i hfree
        rw [freeTotal_cons, freeTotal_cons,
          freeSize_of_free (Option.isNone_iff_eq_none.mp hfree.1),
          freeSize_of_free (Option.isNone_iff_eq_none.mp hfree.2),
          ← Nat.add_assoc]
        rfl
      · simp

theorem total_coalesce (blocks : List (Block ω)) :
    total (coalesce blocks) = total blocks := by
  induction blocks with
  | nil => rfl
  | cons block blocks ih => rw [coalesce_cons, total_push, ih, total_cons]

theorem freeTotal_coalesce (blocks : List (Block ω)) :
    freeTotal (coalesce blocks) = freeTotal blocks := by
  induction blocks with
  | nil => rfl
  | cons block blocks ih => rw [coalesce_cons, freeTotal_push, ih, freeTotal_cons]

theorem Coalesced.push (hblocks : Coalesced blocks) (block : Block ω) :
    Coalesced (push block blocks) := by
  cases blocks with
  | nil => exact List.isChain_singleton block
  | cons next blocks =>
      rw [BlockList.push]
      split
      · rename_i hfree
        cases blocks with
        | nil => exact List.isChain_singleton _
        | cons third blocks =>
            obtain ⟨hnext, hrest⟩ := List.isChain_cons_cons.mp hblocks
            exact List.isChain_cons_cons.mpr ⟨fun _ =>
              hnext (Option.isNone_iff_eq_none.mp hfree.2), hrest⟩
      · rename_i hfree
        refine List.isChain_cons_cons.mpr ⟨fun hblock hnext => hfree ?_, hblocks⟩
        rw [hblock, hnext]
        exact ⟨rfl, rfl⟩

theorem coalesced_coalesce (blocks : List (Block ω)) :
    Coalesced (coalesce blocks) := by
  induction blocks with
  | nil => exact List.isChain_nil
  | cons block blocks ih => exact ih.push block

theorem coalesce_of_coalesced (hblocks : Coalesced blocks) :
    coalesce blocks = blocks := by
  induction blocks with
  | nil => rfl
  | cons block blocks ih =>
      cases blocks with
      | nil => rfl
      | cons next blocks =>
          obtain ⟨hnext, hrest⟩ := List.isChain_cons_cons.mp hblocks
          rw [coalesce_cons, ih hrest, push, if_neg]
          rintro ⟨hfree, hfree'⟩
          exact hnext (Option.isNone_iff_eq_none.mp hfree)
            (Option.isNone_iff_eq_none.mp hfree')

/-- Two free neighbours may be joined first. -/
theorem coalesce_join (front : List (Block ω)) (hblock : block.owner = none)
    (hother : other.owner = none) (back : List (Block ω)) :
    coalesce (front ++ block :: other :: back) =
      coalesce (front ++ ⟨block.size + other.size, none⟩ :: back) := by
  rw [coalesce, coalesce, List.foldr_append, List.foldr_append]
  congr 1
  change push block (push other (coalesce back)) = push _ (coalesce back)
  cases coalesce back with
  | nil => simp [push, hblock, hother]
  | cons next rest =>
      cases hnext : next.owner with
      | none => simp [push, hblock, hother, hnext, Nat.add_assoc]
      | some owner => simp [push, hblock, hother, hnext]

theorem coalesced_append : Coalesced (front ++ back) ↔
    Coalesced front ∧ Coalesced back ∧
      ∀ block ∈ front.getLast?, ∀ next ∈ back.head?,
        block.owner = none → next.owner ≠ none :=
  List.isChain_append

/-- Any block may be replaced by one that is used. -/
theorem Coalesced.use (hblocks : Coalesced (front ++ (block :: back)))
    (hused : other.owner ≠ none) : Coalesced (front ++ (other :: back)) := by
  obtain ⟨hfront, hrest, -⟩ := coalesced_append.mp hblocks
  obtain ⟨-, hback⟩ := List.isChain_cons.mp hrest
  refine coalesced_append.mpr ⟨hfront, ?_, ?_⟩
  · exact List.isChain_cons.mpr ⟨fun _ _ hfree => absurd hfree hused, hback⟩
  · intro before _ next hnext _
    obtain rfl := Option.some.inj hnext
    exact hused

/-- A free block between blocks that are used. -/
theorem Coalesced.free_between (hfront : Coalesced front)
    (hback : Coalesced back)
    (hbefore : ∀ other ∈ front.getLast?, other.owner ≠ none)
    (hbehind : ∀ other ∈ back.head?, other.owner ≠ none) (block : Block ω) :
    Coalesced (front ++ block :: back) := by
  refine coalesced_append.mpr ⟨hfront, ?_, ?_⟩
  · exact List.isChain_cons.mpr ⟨fun other hmem _ => hbehind other hmem, hback⟩
  · exact fun other hmem _ _ hfree => absurd hfree (hbefore other hmem)

/-- What holds of the blocks and is kept when free ones are joined holds of the
coalesced blocks. -/
theorem forall_mem_coalesce {holds : Block ω → Prop}
    (hblocks : ∀ block ∈ blocks, holds block)
    (hjoin : ∀ block next, holds block → holds next → block.owner = none →
      next.owner = none → holds ⟨block.size + next.size, none⟩) :
    ∀ block ∈ coalesce blocks, holds block := by
  induction blocks with
  | nil => simp [coalesce]
  | cons head blocks ih =>
      obtain ⟨hhead, hrest⟩ := List.forall_mem_cons.mp hblocks
      rw [coalesce_cons]
      have hcoalesced := ih hrest
      generalize coalesce blocks = coalesced at hcoalesced ⊢
      cases coalesced with
      | nil => simpa [push] using hhead
      | cons next rest =>
          obtain ⟨hnext, hothers⟩ := List.forall_mem_cons.mp hcoalesced
          rw [push]
          split
          · rename_i hfree
            exact List.forall_mem_cons.mpr ⟨hjoin _ _ hhead hnext
              (Option.isNone_iff_eq_none.mp hfree.1)
              (Option.isNone_iff_eq_none.mp hfree.2), hothers⟩
          · exact List.forall_mem_cons.mpr ⟨hhead, hcoalesced⟩

/-- The size of a free block after it is joined with a free one behind it, and
the blocks that remain. -/
def absorb (size : ℕ) : List (Block ω) → ℕ × List (Block ω)
  | [] => (size, [])
  | next :: blocks =>
      if next.owner.isNone then (size + next.size, blocks)
      else (size, next :: blocks)

theorem absorb_cases (size : ℕ) (blocks : List (Block ω)) :
    (∃ next rest, blocks = next :: rest ∧ next.owner = none ∧
        absorb size blocks = (size + next.size, rest)) ∨
      absorb size blocks = (size, blocks) ∧
        ∀ next ∈ blocks.head?, next.owner ≠ none := by
  cases blocks with
  | nil => exact .inr ⟨rfl, by simp⟩
  | cons next rest =>
      by_cases hfree : next.owner = none
      · refine .inl ⟨next, rest, rfl, hfree, ?_⟩
        rw [absorb, hfree]
        rfl
      · refine .inr ⟨if_neg (mt Option.isNone_iff_eq_none.mp hfree), ?_⟩
        simpa using hfree

theorem absorb_eq (size : ℕ) (blocks : List (Block ω)) :
    ∃ absorbed, blocks = absorbed ++ (absorb size blocks).2 ∧
      (absorb size blocks).1 = size + total absorbed := by
  rcases absorb_cases size blocks with
    ⟨next, rest, rfl, -, habsorb⟩ | ⟨habsorb, -⟩
  · rw [habsorb]
    exact ⟨[next], rfl, by simp⟩
  · rw [habsorb]
    exact ⟨[], rfl, rfl⟩

/-- A block becomes free whose neighbour before it is used. -/
theorem coalesce_absorb (hfront : Coalesced front) (hback : Coalesced back)
    (hbefore : ∀ other ∈ front.getLast?, other.owner ≠ none) (size : ℕ) :
    coalesce (front ++ ⟨size, none⟩ :: back) =
      front ++ ⟨(absorb size back).1, none⟩ :: (absorb size back).2 := by
  rcases absorb_cases size back with
    ⟨next, rest, rfl, hfree, habsorb⟩ | ⟨habsorb, hbehind⟩
  · obtain ⟨hnext, hrest⟩ := List.isChain_cons.mp hback
    rw [habsorb, coalesce_join front rfl hfree]
    exact coalesce_of_coalesced (hfront.free_between hrest hbefore
      (fun other hmem => hnext other hmem hfree) _)
  · rw [habsorb]
    exact coalesce_of_coalesced (hfront.free_between hback hbefore hbehind _)

theorem Coalesced.carve {minimum : ℕ} (owner : ω)
    (hblocks : Coalesced (front ++ (block :: back)))
    (hfree : block.owner = none) :
    Coalesced (front ++ (carve minimum wanted owner block ++ back)) := by
  obtain ⟨hfront, hrest, hseam⟩ := coalesced_append.mp hblocks
  obtain ⟨hnext, hback⟩ := List.isChain_cons.mp hrest
  rw [BlockList.carve]
  split
  · refine coalesced_append.mpr ⟨hfront, ?_, by simp⟩
    exact List.isChain_cons_cons.mpr ⟨by simp, List.isChain_cons.mpr
      ⟨fun next hmem _ => hnext next hmem hfree, hback⟩⟩
  · refine coalesced_append.mpr ⟨hfront, ?_, by simp⟩
    exact List.isChain_cons.mpr ⟨by simp, hback⟩

/-! ## Addresses -/

/-- The addresses of the blocks, the first of which is at `address`. -/
def starts : ℕ → List (Block ω) → List ℕ
  | _, [] => []
  | address, block :: blocks =>
      address :: starts (address + block.size) blocks

/-- The address of the first free block, `target` if there is none. -/
def firstFree (target : ℕ) : ℕ → List (Block ω) → ℕ
  | _, [] => target
  | address, block :: blocks =>
      if block.owner.isNone then address
      else firstFree target (address + block.size) blocks

/-- The address of the last free block, `previous` if there is none. -/
def lastFree (previous : ℕ) : ℕ → List (Block ω) → ℕ
  | _, [] => previous
  | address, block :: blocks =>
      lastFree (if block.owner.isNone then address else previous)
        (address + block.size) blocks

section Addresses

variable {address target previous : ℕ}

theorem starts_append (address : ℕ) (front back : List (Block ω)) :
    starts address (front ++ back) =
      starts address front ++ starts (address + total front) back := by
  induction front generalizing address with
  | nil => rfl
  | cons block front ih =>
      rw [List.cons_append, starts, starts, ih, total_cons, Nat.add_assoc]
      rfl

theorem firstFree_append (target address : ℕ) (front back : List (Block ω)) :
    firstFree target address (front ++ back) =
      firstFree (firstFree target (address + total front) back) address
        front := by
  induction front generalizing address with
  | nil => rfl
  | cons block front ih =>
      rw [List.cons_append, firstFree, firstFree, ih, total_cons, Nat.add_assoc]

theorem firstFree_of_used (hused : ∀ block ∈ blocks, block.owner ≠ none) :
    firstFree target address blocks = target := by
  induction blocks generalizing address with
  | nil => rfl
  | cons block blocks ih =>
      obtain ⟨hblock, hblocks⟩ := List.forall_mem_cons.mp hused
      rw [firstFree, if_neg (mt Option.isNone_iff_eq_none.mp hblock),
        ih hblocks]

theorem lastFree_append (previous address : ℕ) (front back : List (Block ω)) :
    lastFree previous address (front ++ back) =
      lastFree (lastFree previous address front) (address + total front)
        back := by
  induction front generalizing previous address with
  | nil => rfl
  | cons block front ih =>
      rw [List.cons_append, lastFree, lastFree, ih, total_cons, Nat.add_assoc]

theorem lastFree_of_used (hused : ∀ block ∈ blocks, block.owner ≠ none) :
    lastFree previous address blocks = previous := by
  induction blocks generalizing address with
  | nil => rfl
  | cons block blocks ih =>
      obtain ⟨hblock, hblocks⟩ := List.forall_mem_cons.mp hused
      rw [lastFree, if_neg (mt Option.isNone_iff_eq_none.mp hblock), ih hblocks]

/-- No block is free, or one of them is the last. -/
theorem used_or_last (blocks : List (Block ω)) :
    (∀ block ∈ blocks, block.owner ≠ none) ∨
      ∃ front block back, blocks = front ++ block :: back ∧
        block.owner = none ∧ ∀ other ∈ back, other.owner ≠ none := by
  induction blocks with
  | nil => exact .inl (by simp)
  | cons head blocks ih =>
      rcases ih with hused | ⟨front, block, back, rfl, hfree, hused⟩
      · by_cases hhead : head.owner = none
        · exact .inr ⟨[], head, blocks, rfl, hhead, hused⟩
        · exact .inl (List.forall_mem_cons.mpr ⟨hhead, hused⟩)
      · exact .inr ⟨head :: front, block, back, rfl, hfree, hused⟩

theorem lastFree_of_last (hfree : block.owner = none)
    (hused : ∀ other ∈ back, other.owner ≠ none) :
    lastFree previous address (front ++ block :: back) =
      address + total front := by
  rw [lastFree_append, lastFree, hfree]
  exact lastFree_of_used hused

theorem le_of_mem_starts (hmem : target ∈ starts address blocks) :
    address ≤ target := by
  induction blocks generalizing address with
  | nil => cases hmem
  | cons block blocks ih =>
      rcases List.mem_cons.mp hmem with rfl | hmem
      · exact Nat.le_refl _
      · exact (Nat.le_add_right _ _).trans (ih hmem)

theorem lt_of_mem_starts (hpos : ∀ block ∈ blocks, 0 < block.size)
    (hmem : target ∈ starts address blocks) :
    target < address + total blocks := by
  induction blocks generalizing address with
  | nil => cases hmem
  | cons block blocks ih =>
      obtain ⟨hblock, hblocks⟩ := List.forall_mem_cons.mp hpos
      rw [total_cons]
      rcases List.mem_cons.mp hmem with rfl | hmem
      · omega
      · have hlt := ih hblocks hmem
        omega

/-- Blocks do not overlap. -/
theorem eq_of_overlap {front' back' : List (Block ω)}
    (hblocks : front ++ block :: back = front' ++ other :: back')
    (hlower : total front < target) (hupper : target < total front + block.size)
    (hlower' : total front' ≤ target)
    (hupper' : target ≤ total front' + other.size) : block = other := by
  induction front generalizing front' target with
  | nil =>
      cases front' with
      | nil => exact (List.cons.inj hblocks).1
      | cons head front' =>
          obtain ⟨rfl, -⟩ := List.cons.inj hblocks
          rw [total_nil] at hupper
          rw [total_cons] at hlower'
          omega
  | cons head front ih =>
      rw [total_cons] at hlower hupper
      cases front' with
      | nil =>
          obtain ⟨rfl, -⟩ := List.cons.inj hblocks
          rw [total_nil] at hupper'
          omega
      | cons head' front' =>
          obtain ⟨rfl, hrest⟩ := List.cons.inj hblocks
          rw [total_cons] at hlower' hupper'
          have hshift : total front < target - head.size := by omega
          exact ih hrest hshift (by omega) (by omega) (by omega)

/-- The first free block is one of the blocks, or there is none. -/
theorem firstFree_cases (target address : ℕ) (blocks : List (Block ω)) :
    firstFree target address blocks = target ∨
      firstFree target address blocks ∈ starts address blocks := by
  induction blocks generalizing address with
  | nil => exact .inl rfl
  | cons block blocks ih =>
      rw [firstFree, starts]
      split
      · exact .inr (List.mem_cons_self ..)
      · exact (ih _).imp_right (List.mem_cons_of_mem _)

theorem lastFree_cases (previous address : ℕ) (blocks : List (Block ω)) :
    lastFree previous address blocks = previous ∨
      lastFree previous address blocks ∈ starts address blocks := by
  rcases used_or_last blocks with hused | ⟨front, block, back, rfl, hfree, hused⟩
  · exact .inl (lastFree_of_used hused)
  · rw [lastFree_of_last hfree hused, starts_append]
    exact .inr (List.mem_append_right _ (List.mem_cons_self ..))

end Addresses

end PicoSched.BlockList
