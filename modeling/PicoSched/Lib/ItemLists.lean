import Mathlib.Data.List.Nodup
import Mathlib.Data.List.TakeWhile
import Mathlib.Logic.Function.Basic

/-!
# Lists of items with values

Named lists that share a stock of items.  An item is in one list at most and
carries a value; a list can be kept in the order of the values, an item behind
those of its own value.
-/

namespace PicoSched.ItemLists

variable {ι κ : Type*}

/-! ## Insertion by value -/

section Insertion

variable (value : ι → ℕ) (item : ι) {items : List ι}

/-- The item goes behind the leading items whose value is no larger. -/
def insertByValue (items : List ι) : List ι :=
  items.takeWhile (fun other => value other ≤ value item) ++
    item :: items.dropWhile fun other => value other ≤ value item

theorem insertByValue_cons (other : ι) :
    insertByValue value item (other :: items) =
      if value other ≤ value item then other :: insertByValue value item items
      else item :: other :: items := by
  by_cases hle : value other ≤ value item <;> simp [insertByValue, hle]

theorem insertByValue_perm :
    (insertByValue value item items).Perm (item :: items) := by
  have hsplit := List.takeWhile_append_dropWhile
    (p := fun other => decide (value other ≤ value item)) (l := items)
  calc insertByValue value item items
      = _ ++ item :: _ := rfl
    _ |>.Perm (item :: (_ ++ _)) := List.perm_middle
    _ = item :: items := by rw [hsplit]

@[simp]
theorem mem_insertByValue {other : ι} :
    other ∈ insertByValue value item items ↔ other = item ∨ other ∈ items := by
  rw [(insertByValue_perm value item).mem_iff, List.mem_cons]

/-- The items stand in the order of their values. -/
def Sorted (items : List ι) : Prop :=
  items.Pairwise fun left right => value left ≤ value right

theorem sorted_insertByValue (hsorted : Sorted value items) :
    Sorted value (insertByValue value item items) := by
  induction items with
  | nil => exact List.pairwise_singleton _ _
  | cons other items ih =>
      obtain ⟨hother, hrest⟩ := List.pairwise_cons.mp hsorted
      rw [insertByValue_cons]
      split
      · rename_i hle
        refine List.pairwise_cons.mpr ⟨fun next hnext => ?_, ih hrest⟩
        rcases (mem_insertByValue value item).mp hnext with rfl | hmem
        · exact hle
        · exact hother next hmem
      · rename_i hlt
        have hle := (not_le.mp hlt).le
        refine List.pairwise_cons.mpr ⟨fun next hnext => ?_, hsorted⟩
        rcases List.mem_cons.mp hnext with rfl | hmem
        · exact hle
        · exact hle.trans (hother next hmem)

end Insertion

theorem Sorted.erase [DecidableEq ι] {value : ι → ℕ} {items : List ι}
    (hsorted : Sorted value items) (item : ι) :
    Sorted value (items.erase item) :=
  hsorted.sublist List.erase_sublist

theorem Sorted.congr {value value' : ι → ℕ} {items : List ι}
    (hsorted : Sorted value items)
    (hsame : ∀ item ∈ items, value' item = value item) :
    Sorted value' items := by
  refine hsorted.imp_of_mem fun {left right} hleft hright hle => ?_
  rw [hsame left hleft, hsame right hright]
  exact hle

/-! ## Stores -/

/-- The contents of the lists and the values of the items. -/
@[ext]
structure Store (ι κ : Type*) where
  contents : κ → List ι
  value : ι → ℕ

namespace Store

/-- The item is in no list. -/
def Free (item : ι) (store : Store ι κ) : Prop :=
  ∀ list, item ∉ store.contents list

/-- No item is in two lists, or twice in one. -/
structure Separate (store : Store ι κ) : Prop where
  nodup : ∀ list, (store.contents list).Nodup
  unique : ∀ item list list', item ∈ store.contents list →
    item ∈ store.contents list' → list = list'

variable {list : κ} {item : ι} {store : Store ι κ}

/-! ### Insertion -/

section Insertion

variable [DecidableEq κ]

def setContents (list : κ) (items : List ι) (store : Store ι κ) : Store ι κ :=
  { store with contents := Function.update store.contents list items }

def insertEnd (list : κ) (item : ι) (store : Store ι κ) : Store ι κ :=
  store.setContents list (store.contents list ++ [item])

def insert (list : κ) (item : ι) (store : Store ι κ) : Store ι κ :=
  store.setContents list (insertByValue store.value item (store.contents list))

@[simp]
theorem contents_setContents_self {items : List ι} :
    (store.setContents list items).contents list = items :=
  Function.update_self ..

theorem contents_setContents_of_ne {items : List ι} {other : κ}
    (hother : other ≠ list) :
    (store.setContents list items).contents other = store.contents other :=
  Function.update_of_ne hother ..

theorem mem_setContents {items : List ι}
    (hperm : items.Perm (item :: store.contents list)) {entry : ι} {other : κ} :
    entry ∈ (store.setContents list items).contents other ↔
      entry = item ∧ other = list ∨ entry ∈ store.contents other := by
  by_cases hother : other = list
  · subst hother
    rw [contents_setContents_self, hperm.mem_iff, List.mem_cons]
    simp only [and_true]
  · rw [contents_setContents_of_ne hother]
    simp only [hother, and_false, false_or]

/-- A new item in one list. -/
theorem Separate.setContents (hseparate : store.Separate)
    (hfree : store.Free item) {items : List ι}
    (hperm : items.Perm (item :: store.contents list)) :
    (store.setContents list items).Separate where
  nodup other := by
    by_cases hother : other = list
    · subst hother
      rw [contents_setContents_self, hperm.nodup_iff]
      exact List.nodup_cons.mpr ⟨hfree other, hseparate.nodup other⟩
    · rw [contents_setContents_of_ne hother]
      exact hseparate.nodup other
  unique entry first second hfirst hsecond := by
    rw [mem_setContents hperm] at hfirst hsecond
    rcases hfirst with ⟨rfl, rfl⟩ | hfirst
    · exact hsecond.elim (fun heq => heq.2.symm)
        fun hmem => absurd hmem (hfree second)
    · rcases hsecond with ⟨rfl, -⟩ | hsecond
      · exact absurd hfirst (hfree first)
      · exact hseparate.unique entry first second hfirst hsecond

theorem Separate.insertEnd (hseparate : store.Separate)
    (hfree : store.Free item) : (store.insertEnd list item).Separate :=
  hseparate.setContents hfree (List.perm_append_singleton item _)

theorem Separate.insert (hseparate : store.Separate)
    (hfree : store.Free item) : (store.insert list item).Separate :=
  hseparate.setContents hfree (insertByValue_perm store.value item)

end Insertion

/-! ### Removal and values -/

section Removal

variable [DecidableEq ι]

def remove (item : ι) (store : Store ι κ) : Store ι κ :=
  { store with contents := fun list => (store.contents list).erase item }

def setValue (item : ι) (value : ℕ) (store : Store ι κ) : Store ι κ :=
  { store with value := Function.update store.value item value }

theorem Separate.mem_remove (hseparate : store.Separate) {other : ι} {list : κ} :
    other ∈ (store.remove item).contents list ↔
      other ≠ item ∧ other ∈ store.contents list :=
  (hseparate.nodup list).mem_erase_iff

theorem Separate.remove (hseparate : store.Separate) :
    (store.remove item).Separate where
  nodup other := (hseparate.nodup other).erase item
  unique entry first second hfirst hsecond :=
    hseparate.unique entry first second (List.mem_of_mem_erase hfirst)
      (List.mem_of_mem_erase hsecond)

theorem Separate.setValue {value : ℕ} (hseparate : store.Separate) :
    (store.setValue item value).Separate := ⟨hseparate.nodup, hseparate.unique⟩

end Removal

end Store

end PicoSched.ItemLists
