import PicoSched.Runtime.KernelLists

/-!
# Lists in the order of their values

What a caller of `list.c` may rely on, in terms of the fields it reads: the
container of an item, its value, the number of items and the head of a list.
-/

namespace PicoSched.KernelList

open ItemLists LinkedRing Transition

variable {ι κ : Type*} {ordered : κ → Prop} {memory after : Memory ι κ}
  {list : κ} {item : ι}

/-- The memory is that of a store, and the `ordered` lists stand in the order
of the values of their items. -/
def InOrder (ordered : κ → Prop) (memory : Memory ι κ) : Prop :=
  ∃ store, Represents memory store ∧
    ∀ list, ordered list → Sorted store.value (store.contents list)

/-- The item is in the list, and nothing else has changed. -/
structure Puts (list : κ) (item : ι) [DecidableEq ι] [DecidableEq κ]
    (memory after : Memory ι κ) : Prop where
  container : after.container =
    Function.update memory.container (.item item) (some list)
  itemValue : after.itemValue = memory.itemValue
  numberOfItems : after.numberOfItems =
    Function.update memory.numberOfItems list (memory.numberOfItems list + 1)

/-- The item has left the list, and nothing else has changed. -/
structure Takes (list : κ) (item : ι) [DecidableEq ι] [DecidableEq κ]
    (memory after : Memory ι κ) : Prop where
  container : after.container =
    Function.update memory.container (.item item) none
  itemValue : after.itemValue = memory.itemValue
  numberOfItems : after.numberOfItems =
    Function.update memory.numberOfItems list (memory.numberOfItems list - 1)

/-- The head of a list, which is its least item if the list is ordered. -/
theorem InOrder.head (horder : InOrder ordered memory) (list : κ) :
    memory.numberOfItems list = 0 ∧
        (∀ item, memory.container (.item item) ≠ some list) ∨
      memory.numberOfItems list ≠ 0 ∧ ∃ head,
        memory.links.next (.listEnd list) = .item head ∧
        memory.container (.item head) = some list ∧
        (ordered list → ∀ item, memory.container (.item item) = some list →
          memory.itemValue (.item head) ≤ memory.itemValue (.item item)) := by
  obtain ⟨store, hrep, hsorted⟩ := horder
  have hnext := (hrep.ring list).path.next_first
  simp only [hrep.numberOfItems, hrep.itemValue, hrep.container, ne_eq]
  cases hcontents : store.contents list with
  | nil => exact .inl ⟨rfl, fun item => List.not_mem_nil⟩
  | cons head items =>
      simp only [hcontents] at hnext
      refine .inr ⟨Nat.succ_ne_zero _, head, hnext, List.mem_cons_self, ?_⟩
      intro hordered item hitem
      have hleast := hsorted list hordered
      rw [hcontents] at hleast
      rcases List.mem_cons.mp hitem with rfl | hmem
      · exact le_rfl
      · exact (List.pairwise_cons.mp hleast).1 item hmem

variable [DecidableEq ι] [DecidableEq κ]

theorem puts_vListInsertEnd (list : κ) (item : ι) (memory : Memory ι κ) :
    Puts list item memory (vListInsertEnd list item memory) := ⟨rfl, rfl, rfl⟩

theorem InOrder.vListInsertEnd (horder : InOrder ordered memory)
    (hlist : ¬ordered list) (hfree : memory.container (.item item) = none) :
    InOrder ordered (vListInsertEnd list item memory) := by
  obtain ⟨store, hrep, hsorted⟩ := horder
  refine ⟨_, hrep.vListInsertEnd (hrep.free_iff.mp hfree), ?_⟩
  intro other hother
  have hne : other ≠ list := fun heq => hlist (heq ▸ hother)
  rw [Store.insertEnd, Store.contents_setContents_of_ne hne]
  exact hsorted other hother

theorem InOrder.vListInsert (horder : InOrder ordered memory) (list : κ)
    (hfree : memory.container (.item item) = none) :
    ∃ after, vListInsert list item memory = some after ∧
      InOrder ordered after ∧ Puts list item memory after := by
  obtain ⟨store, hrep, hsorted⟩ := horder
  obtain ⟨after, hinsert, hafter⟩ :=
    hrep.vListInsert list (hrep.free_iff.mp hfree)
  refine ⟨after, hinsert, ⟨_, hafter, ?_⟩, ?_⟩
  · intro other hother
    by_cases hne : other = list
    · subst hne
      rw [Store.insert, Store.contents_setContents_self]
      exact sorted_insertByValue store.value item (hsorted other hother)
    · rw [Store.insert, Store.contents_setContents_of_ne hne]
      exact hsorted other hother
  · rw [KernelList.vListInsert] at hinsert
    split at hinsert
    · cases hinsert
    · obtain rfl := Option.some.inj hinsert
      exact ⟨rfl, rfl, rfl⟩

theorem InOrder.uxListRemove (horder : InOrder ordered memory)
    (hlist : memory.container (.item item) = some list) :
    ∃ after, (uxListRemove item memory).map Prod.snd = some after ∧
      InOrder ordered after ∧ Takes list item memory after := by
  obtain ⟨store, hrep, hsorted⟩ := horder
  have hmem := (hrep.container item list).mp hlist
  obtain ⟨after, hremove, hafter⟩ := hrep.uxListRemove hmem
  refine ⟨after, by rw [hremove]; rfl, ⟨_, hafter, ?_⟩, ?_⟩
  · intro other hother
    exact (hsorted other hother).erase item
  · simp only [KernelList.uxListRemove, hlist, Option.some.injEq,
      Prod.mk.injEq] at hremove
    obtain ⟨-, rfl⟩ := hremove
    constructor <;> split <;> rfl

theorem uxListRemove_eq_none (hfree : memory.container (.item item) = none) :
    uxListRemove item memory = none := by
  rw [uxListRemove, hfree]

/-- The value of an item changes while it is in no ordered list. -/
theorem InOrder.setItemValue (horder : InOrder ordered memory) {value : ℕ}
    (hvalue : value ≤ portMaxDelay)
    (hlist : ∀ list, ordered list →
      memory.container (.item item) ≠ some list) :
    InOrder ordered (memory.setItemValue (.item item) value) := by
  obtain ⟨store, hrep, hsorted⟩ := horder
  refine ⟨_, hrep.setItemValue hvalue, ?_⟩
  intro other hother
  refine (hsorted other hother).congr fun entry hentry => ?_
  refine Function.update_of_ne (fun heq => ?_) _ _
  exact hlist other hother ((hrep.container item other).mpr (heq ▸ hentry))

theorem inOrder_initialise (setup : Setup ι κ) (ordered : κ → Prop) :
    InOrder ordered (initialise setup.lists setup.memory) :=
  ⟨_, represents_initialise setup, fun _ _ => List.Pairwise.nil⟩

/-! ## Runs that keep the order -/

/-- A call that does not spoil the order of a list: nothing is appended to it
and its items keep their values. -/
def KeepsOrder (list : κ) (memory : Memory ι κ) : Call ι κ → Prop
  | .insertEnd other _ => other ≠ list
  | .insert _ _ => True
  | .remove _ => True
  | .setValue item _ => memory.container (.item item) ≠ some list

instance (list : κ) (memory : Memory ι κ) (call : Call ι κ) :
    Decidable (KeepsOrder list memory call) :=
  match call with
  | .insertEnd other _ => inferInstanceAs (Decidable (other ≠ list))
  | .insert _ _ => .isTrue trivial
  | .remove _ => .isTrue trivial
  | .setValue item _ =>
      inferInstanceAs (Decidable (memory.container (.item item) ≠ some list))

theorem InOrder.step (horder : InOrder (· = list) memory) {call : Call ι κ}
    (hkeeps : KeepsOrder list memory call)
    (hstep : KernelList.step memory call = some after) :
    InOrder (· = list) after := by
  cases call with
  | insertEnd other item =>
      obtain ⟨hfree, ⟨⟩⟩ := Option.ite_none_right_eq_some.mp hstep
      exact horder.vListInsertEnd hkeeps hfree
  | insert other item =>
      obtain ⟨hfree, hinsert⟩ := Option.ite_none_right_eq_some.mp hstep
      obtain ⟨result, hresult, horder', -⟩ := horder.vListInsert other hfree
      obtain rfl := Option.some.inj (hinsert.symm.trans hresult)
      exact horder'
  | remove item =>
      change (KernelList.uxListRemove item memory).map Prod.snd = _ at hstep
      cases hlist : memory.container (.item item) with
      | none =>
          rw [uxListRemove_eq_none hlist] at hstep
          cases hstep
      | some other =>
          obtain ⟨result, hresult, horder', -⟩ := horder.uxListRemove hlist
          obtain rfl := Option.some.inj (hstep.symm.trans hresult)
          exact horder'
  | setValue item value =>
      obtain rfl := Option.some.inj hstep
      refine horder.setItemValue ?_ ?_
      · exact Nat.le_pred_of_lt (Nat.mod_lt value (Nat.two_pow_pos 32))
      · rintro _ rfl
        exact hkeeps

/-- The items along the links of a list that is only changed by `vListInsert`
and `uxListRemove` stand in the order of their values. -/
theorem sorted_of_reaches (setup : Setup ι κ) (list : κ)
    (hreach : (machine setup).Reaches (KeepsOrder list) memory) :
    ∃ items : List ι, Ring memory.links (.listEnd list) (nodes items) ∧
      (∀ item, memory.container (.item item) = some list ↔ item ∈ items) ∧
      Sorted (fun item => memory.itemValue (.item item)) items := by
  have hinvariant : InOrder (· = list) memory := by
    apply hreach.invariant
    · exact inOrder_initialise setup _
    · intro state call after _ hkeeps hstep horder
      exact horder.step hkeeps hstep
  obtain ⟨store, hrep, hsorted⟩ := hinvariant
  refine ⟨store.contents list, hrep.ring list,
    fun item => hrep.container item list, ?_⟩
  exact (hsorted list rfl).congr fun item _ => hrep.itemValue item

/-- Three items and one list. -/
def oneList : Setup (Fin 3) (Fin 1) where
  lists := [0]
  memory := ⟨⟨id, id⟩, fun _ => 0, fun _ => none, fun _ => .listEnd 0, fun _ => 0⟩
  complete list := by
    rw [List.mem_singleton]
    exact Subsingleton.elim list 0
  container_eq _ := rfl
  itemValue_lt _ := Nat.two_pow_pos 32

/-- Items with the values 5, 3 and 3 are inserted, and one of them removed. -/
def threeInsertions : List (Call (Fin 3) (Fin 1)) :=
  [.setValue 0 5, .insert 0 0, .setValue 1 3, .insert 0 1, .setValue 2 3,
    .insert 0 2, .remove 1]

theorem oneList_sorted : ∃ memory : Memory (Fin 3) (Fin 1),
    memory.links.next (.listEnd 0) = .item 2 ∧
      ∃ items : List (Fin 3), Ring memory.links (.listEnd 0) (nodes items) ∧
        (∀ item, memory.container (.item item) = some 0 ↔ item ∈ items) ∧
        Sorted (fun item => memory.itemValue (.item item)) items := by
  obtain ⟨memory, hreach, hnext⟩ : ∃ memory,
      (machine oneList).Reaches (KeepsOrder 0) memory ∧
        decide (memory.links.next (.listEnd 0) = .item 2) = true :=
    Machine.exists_reaches_of_exec threeInsertions _ (by decide)
  exact ⟨memory, of_decide_eq_true hnext, sorted_of_reaches oneList 0 hreach⟩

end PicoSched.KernelList
