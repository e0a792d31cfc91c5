import PicoSched.Lib.ItemLists
import PicoSched.Model.KernelList

/-!
# What the lists of the kernel hold

Every memory that calls of `list.c` lead to is that of a store of items: the
ring of each list goes through its contents, and every call does to the rings
what it should do to the contents.
-/

namespace PicoSched.KernelList

open ItemLists LinkedRing Transition

variable {ι κ : Type*} {memory after : Memory ι κ} {store : Store ι κ}
  {list : κ} {item : ι}

/-! ## Represented stores -/

/-- The nodes of a list behind its end marker. -/
def nodes (items : List ι) : List (Node ι κ) := items.map .item

structure Represents (memory : Memory ι κ) (store : Store ι κ) : Prop where
  ring : ∀ list, Ring memory.links (.listEnd list) (nodes (store.contents list))
  container : ∀ item list, memory.container (.item item) = some list ↔
    item ∈ store.contents list
  index : ∀ list, memory.index list = .listEnd list
  numberOfItems : ∀ list,
    memory.numberOfItems list = (store.contents list).length
  endValue : ∀ list, memory.itemValue (.listEnd list) = portMaxDelay
  itemValue : ∀ item, memory.itemValue (.item item) = store.value item
  value_le : ∀ item, store.value item ≤ portMaxDelay

@[simp]
theorem item_mem_nodes {items : List ι} :
    (.item item : Node ι κ) ∈ nodes items ↔ item ∈ items := by
  simp [nodes]

theorem listEnd_not_mem_nodes {items : List ι} :
    (.listEnd list : Node ι κ) ∉ nodes items := by
  simp [nodes]

theorem nodes_append (left right : List ι) :
    (nodes (left ++ right) : List (Node ι κ)) = nodes left ++ nodes right :=
  List.map_append ..

/-- The last node of a prefix of a list, its end marker if there is none. -/
def lastNode (list : κ) (items : List ι) : Node ι κ :=
  (Node.listEnd list :: nodes items).getLast (List.cons_ne_nil _ _)

theorem lastNode_mem (list : κ) (items : List ι) :
    lastNode list items ∈ Node.listEnd list :: nodes items :=
  List.getLast_mem _

theorem lastNode_concat (list : κ) (items : List ι) :
    lastNode list (items ++ [item]) = .item item := by
  simp [lastNode, nodes]

namespace Represents

theorem free_iff (hrep : Represents memory store) :
    memory.container (.item item) = none ↔ store.Free item := by
  rw [Option.eq_none_iff_forall_ne_some]
  exact forall_congr' fun list => not_congr (hrep.container item list)

theorem separate (hrep : Represents memory store) : store.Separate where
  nodup list := (List.nodup_cons.mp (hrep.ring list).nodup).2.of_map
  unique item first second hfirst hsecond := by
    rw [← hrep.container] at hfirst hsecond
    exact Option.some.inj (hfirst.symm.trans hsecond)

/-- The rings have no node in common. -/
theorem disjoint (hrep : Represents memory store) {other : κ}
    (hother : other ≠ list) {node : Node ι κ}
    (hnode : node ∈ Node.listEnd list :: nodes (store.contents list)) :
    node ∉ Node.listEnd other :: nodes (store.contents other) := by
  intro hmem
  cases node with
  | listEnd marker =>
      simp only [List.mem_cons, listEnd_not_mem_nodes, or_false,
        Node.listEnd.injEq] at hnode hmem
      exact hother (hmem.symm.trans hnode)
  | item item =>
      simp only [List.mem_cons, reduceCtorEq, item_mem_nodes, false_or]
        at hnode hmem
      exact hother (hrep.separate.unique item other list hmem hnode)

theorem next_lastNode (hrep : Represents memory store) {left right : List ι}
    (hsplit : store.contents list = left ++ right) :
    memory.links.next (lastNode list left) =
      (nodes right ++ [Node.listEnd list]).head (by simp) := by
  have hpath := (hrep.ring list).path
  rw [hsplit, nodes_append] at hpath
  exact hpath.next_getLast

theorem next_lastNode_mem (hrep : Represents memory store)
    {left right : List ι} (hsplit : store.contents list = left ++ right) :
    memory.links.next (lastNode list left) ∈
      Node.listEnd list :: nodes (store.contents list) := by
  have hmem := List.head_mem (l := nodes right ++ [Node.listEnd list])
    (by simp)
  rw [← hrep.next_lastNode hsplit, List.mem_append, List.mem_singleton] at hmem
  rw [hsplit, nodes_append, List.mem_cons, List.mem_append]
  exact hmem.elim (fun hright => .inr (.inr hright)) .inl

theorem previous_listEnd (hrep : Represents memory store) (list : κ) :
    memory.links.previous (.listEnd list) =
      lastNode list (store.contents list) :=
  (hrep.ring list).path.previous_last

theorem node_not_mem (hfree : store.Free item) (list : κ) :
    (.item item : Node ι κ) ∉ Node.listEnd list :: nodes (store.contents list) := by
  simpa using hfree list

variable [DecidableEq ι] [DecidableEq κ]

/-! ## Insertion -/

/-- A free item that is linked in behind a prefix of a list. -/
theorem linked (hrep : Represents memory store) (hfree : store.Free item)
    {left right : List ι} (hsplit : store.contents list = left ++ right)
    (hlinks : after.links =
      memory.links.insertAfter (lastNode list left) (.item item))
    (hcontainer : after.container =
      Function.update memory.container (.item item) (some list))
    (hcount : after.numberOfItems = Function.update memory.numberOfItems list
      (memory.numberOfItems list + 1))
    (hindex : after.index = memory.index)
    (hvalue : after.itemValue = memory.itemValue) :
    Represents after (store.setContents list (left ++ item :: right)) where
  ring other := by
    rw [hlinks]
    by_cases hother : other = list
    · subst hother
      have hring := hrep.ring other
      have hnode := node_not_mem (κ := κ) hfree other
      rw [hsplit, nodes_append] at hring hnode
      rw [Store.contents_setContents_self, nodes_append]
      exact hring.insert hnode
    · rw [Store.contents_setContents_of_ne hother]
      apply (hrep.ring other).insert_frame (node_not_mem hfree other)
      · apply hrep.disjoint hother
        have hlast := lastNode_mem list left
        rw [hsplit, nodes_append, List.mem_cons, List.mem_append]
        rw [List.mem_cons] at hlast
        exact hlast.imp_right .inl
      · exact hrep.disjoint hother (hrep.next_lastNode_mem hsplit)
  container entry other := by
    have hperm : (left ++ item :: right).Perm (item :: store.contents list) :=
      hsplit ▸ List.perm_middle
    rw [Store.mem_setContents hperm, hcontainer, ← hrep.container]
    by_cases hentry : entry = item
    · subst hentry
      rw [Function.update_self, hrep.free_iff.mpr hfree, Option.some.injEq]
      simp [eq_comm]
    · rw [Function.update_of_ne fun heq => hentry (Node.item.inj heq)]
      simp [hentry]
  index := hindex ▸ hrep.index
  numberOfItems other := by
    rw [hcount]
    by_cases hother : other = list
    · subst hother
      rw [Function.update_self, Store.contents_setContents_self,
        hrep.numberOfItems, hsplit]
      simp only [List.length_append, List.length_cons, Nat.add_assoc]
    · rw [Function.update_of_ne hother, Store.contents_setContents_of_ne hother]
      exact hrep.numberOfItems other
  endValue := hvalue ▸ hrep.endValue
  itemValue := hvalue ▸ hrep.itemValue
  value_le := hrep.value_le

theorem vListInsertEnd (hrep : Represents memory store)
    (hfree : store.Free item) :
    Represents (vListInsertEnd list item memory) (store.insertEnd list item) := by
  have hsplit := (List.append_nil (store.contents list)).symm
  refine hrep.linked hfree hsplit ?_ rfl rfl rfl rfl
  have hnext := hrep.next_lastNode hsplit
  rw [← hrep.previous_listEnd list] at hnext ⊢
  ext node
  · simp [KernelList.vListInsertEnd, Links.insertAfter, Memory.setNext,
      Memory.setPrevious, Memory.setContainer, Memory.setNumberOfItems,
      hrep.index, hnext, nodes]
  · simp [KernelList.vListInsertEnd, Links.insertAfter, Memory.setNext,
      Memory.setPrevious, Memory.setContainer, Memory.setNumberOfItems,
      hrep.index, hnext, nodes]

omit [DecidableEq ι] [DecidableEq κ] in
/-- The loop of `vListInsert` stops behind the leading items whose value is no
larger than the one to insert. -/
theorem insertionPoint_eq (hrep : Represents memory store) {value : ℕ}
    (hvalue : value < portMaxDelay) {left right : List ι}
    (hsplit : store.contents list = left ++ right) {fuel : ℕ}
    (hfuel : right.length ≤ fuel) :
    insertionPoint value memory fuel (lastNode list left) =
      some (lastNode list
        (left ++ right.takeWhile fun other => store.value other ≤ value)) := by
  induction right generalizing left fuel with
  | nil =>
      have hnext : memory.links.next (lastNode list left) = .listEnd list :=
        hrep.next_lastNode hsplit
      cases fuel <;>
        simp [insertionPoint, hnext, hrep.endValue, hvalue.not_ge]
  | cons head right ih =>
      have hnext : memory.links.next (lastNode list left) = .item head :=
        hrep.next_lastNode hsplit
      obtain ⟨fuel, rfl⟩ : ∃ count, fuel = count + 1 :=
        Nat.exists_eq_add_one.mpr (Nat.lt_of_lt_of_le (Nat.succ_pos _) hfuel)
      rw [insertionPoint, hnext, hrep.itemValue]
      by_cases hle : store.value head ≤ value
      · have hsplit' : store.contents list = left ++ [head] ++ right := by
          rw [hsplit, List.append_assoc, List.singleton_append]
        have hrest := ih hsplit' (Nat.le_of_succ_le_succ hfuel)
        rw [lastNode_concat] at hrest
        rw [if_pos hle, hrest, List.takeWhile_cons_of_pos (by simpa using hle),
          List.append_assoc, List.singleton_append]
      · rw [if_neg hle, List.takeWhile_cons_of_neg (by simpa using hle),
          List.append_nil]

omit [DecidableEq ι] [DecidableEq κ] in
theorem iteratorOf_eq (hrep : Represents memory store) (list : κ) {value : ℕ}
    (hvalue : value ≤ portMaxDelay) :
    iteratorOf list value memory = some (lastNode list
      ((store.contents list).takeWhile fun other => store.value other ≤ value)) := by
  rw [iteratorOf]
  split
  · rename_i heq
    rw [hrep.previous_listEnd, List.takeWhile_eq_self_iff.mpr]
    intro other _
    exact decide_eq_true (heq ▸ hrep.value_le other)
  · rename_i hne
    exact hrep.insertionPoint_eq (Nat.lt_of_le_of_ne hvalue hne)
      (List.nil_append _).symm
      (hrep.numberOfItems list).ge

/-- `vListInsert` ends and keeps the order of the values. -/
theorem vListInsert (hrep : Represents memory store) (list : κ)
    (hfree : store.Free item) :
    ∃ after, vListInsert list item memory = some after ∧
      Represents after (store.insert list item) := by
  have hvalue := hrep.value_le item
  have hsplit := (List.takeWhile_append_dropWhile
    (p := fun other => decide (store.value other ≤ store.value item))
    (l := store.contents list)).symm
  rw [KernelList.vListInsert, hrep.itemValue, hrep.iteratorOf_eq list hvalue]
  refine ⟨_, rfl, hrep.linked hfree hsplit ?_ rfl rfl rfl rfl⟩
  generalize hlast : lastNode list ((store.contents list).takeWhile
    fun other => decide (store.value other ≤ store.value item)) = last
  have hnext : memory.links.next last ≠ .item item := by
    intro heq
    have hmem := hrep.next_lastNode_mem hsplit
    rw [hlast, heq] at hmem
    exact node_not_mem hfree list hmem
  ext node
  · simp [Links.insertAfter, Memory.setNext, Memory.setPrevious,
      Memory.setContainer, Memory.setNumberOfItems]
  · simp [Links.insertAfter, Memory.setNext, Memory.setPrevious,
      Memory.setContainer, Memory.setNumberOfItems]
    rw [Function.update_comm hnext]

/-! ## Removal -/

omit [DecidableEq ι] [DecidableEq κ] in
theorem neighbours (hrep : Represents memory store) {left right : List ι}
    (hsplit : store.contents list = left ++ item :: right) :
    memory.links.previous (.item item) = lastNode list left ∧
      memory.links.next (.item item) =
        (nodes right ++ [Node.listEnd list]).head (by simp) := by
  have hpath := (hrep.ring list).path
  rw [hsplit, nodes_append] at hpath
  obtain ⟨hbefore, hafter⟩ := path_append.mp hpath
  exact ⟨hbefore.previous_last, hafter.next_first⟩

omit [DecidableEq κ] in
theorem contents_remove (hrep : Represents memory store) {left right : List ι}
    (hsplit : store.contents list = left ++ item :: right) (other : κ) :
    (store.remove item).contents other = store.contents other ∧ other ≠ list ∨
      (store.remove item).contents other = left ++ right ∧ other = list := by
  have hmem : item ∈ store.contents list := by simp [hsplit]
  by_cases hother : other = list
  · subst hother
    have hnodup := hrep.separate.nodup other
    rw [hsplit] at hnodup
    have hleft : item ∉ left := fun hleft =>
      (List.nodup_middle.mp hnodup).notMem (List.mem_append_left _ hleft)
    refine .inr ⟨?_, rfl⟩
    change (store.contents other).erase item = _
    rw [hsplit, List.erase_append_right _ hleft, List.erase_cons_head]
  · refine .inl ⟨List.erase_of_not_mem fun hmem' => ?_, hother⟩
    exact hother (hrep.separate.unique item other list hmem' hmem)

theorem unlinked (hrep : Represents memory store)
    (hmem : item ∈ store.contents list)
    (hlinks : after.links = memory.links.unlink (.item item))
    (hcontainer : after.container =
      Function.update memory.container (.item item) none)
    (hcount : after.numberOfItems = Function.update memory.numberOfItems list
      (memory.numberOfItems list - 1))
    (hindex : after.index = memory.index)
    (hvalue : after.itemValue = memory.itemValue) :
    Represents after (store.remove item) := by
  obtain ⟨left, right, hsplit⟩ := List.append_of_mem hmem
  have hcontents := hrep.contents_remove hsplit
  obtain ⟨hprevious, hnext⟩ := hrep.neighbours hsplit
  constructor
  · intro other
    rw [hlinks]
    rcases hcontents other with ⟨hsame, hother⟩ | ⟨hcut, rfl⟩
    · rw [hsame]
      apply (hrep.ring other).unlink_frame
      · rw [hprevious]
        apply hrep.disjoint hother
        have hlast := lastNode_mem list left
        rw [hsplit, nodes_append, List.mem_cons, List.mem_append]
        rw [List.mem_cons] at hlast
        exact hlast.imp_right .inl
      · rw [hnext]
        apply hrep.disjoint hother
        have hhead := List.head_mem (l := nodes right ++ [Node.listEnd list])
          (by simp)
        rw [List.mem_append, List.mem_singleton] at hhead
        rw [hsplit, nodes_append, List.mem_cons, List.mem_append]
        exact hhead.elim (fun hright => .inr (.inr (List.mem_cons_of_mem _ hright)))
          .inl
    · have hring := hrep.ring other
      rw [hsplit, nodes_append] at hring
      rw [hcut, nodes_append]
      exact hring.unlink
  · intro entry other
    rw [hrep.separate.mem_remove, hcontainer, ← hrep.container]
    by_cases hentry : entry = item
    · subst hentry
      simp
    · rw [Function.update_of_ne fun heq => hentry (Node.item.inj heq)]
      simp [hentry]
  · exact hindex ▸ hrep.index
  · intro other
    rw [hcount]
    rcases hcontents other with ⟨hsame, hother⟩ | ⟨hcut, rfl⟩
    · rw [Function.update_of_ne hother, hsame]
      exact hrep.numberOfItems other
    · rw [Function.update_self, hcut, hrep.numberOfItems, hsplit]
      simp only [List.length_append, List.length_cons]
      rfl
  · exact hvalue ▸ hrep.endValue
  · exact hvalue ▸ hrep.itemValue
  · exact hrep.value_le

theorem uxListRemove (hrep : Represents memory store)
    (hmem : item ∈ store.contents list) :
    ∃ after, uxListRemove item memory =
        some ((store.contents list).length - 1, after) ∧
      Represents after (store.remove item) := by
  have hlist := (hrep.container item list).mpr hmem
  have hindex : memory.index list ≠ .item item := by simp [hrep.index]
  refine ⟨{ memory with
    links := memory.links.unlink (.item item)
    container := Function.update memory.container (.item item) none
    numberOfItems := Function.update memory.numberOfItems list
      (memory.numberOfItems list - 1) }, ?_,
    hrep.unlinked hmem rfl rfl rfl rfl rfl⟩
  have hlinks : memory.links.unlink (.item item) =
      ((memory.setPrevious (memory.links.next (.item item))
        (memory.links.previous (.item item))).setNext
          (memory.links.previous (.item item))
          (memory.links.next (.item item))).links := rfl
  simp only [KernelList.uxListRemove, hlist, hlinks, Option.some.injEq,
    Prod.mk.injEq]
  have hprevious : (memory.setPrevious (memory.links.next (.item item))
      (memory.links.previous (.item item))).links.previous (.item item) =
        memory.links.previous (.item item) := by
    simp [Memory.setPrevious, Function.update_apply]
  rw [hprevious]
  constructor
  · simp [Memory.setNext, Memory.setPrevious, Memory.setContainer,
      Memory.setNumberOfItems, hindex, hrep.numberOfItems]
  · apply Memory.ext <;> simp [Memory.setNext, Memory.setPrevious,
      Memory.setContainer, Memory.setNumberOfItems, hindex]

end Represents

/-! ## Initialisation -/

section Calls

variable [DecidableEq ι] [DecidableEq κ]

/-- The fields of a list that `vListInitialise` sets. -/
structure Empty (memory : Memory ι κ) (list : κ) : Prop where
  next : memory.links.next (.listEnd list) = .listEnd list
  previous : memory.links.previous (.listEnd list) = .listEnd list
  index : memory.index list = .listEnd list
  numberOfItems : memory.numberOfItems list = 0
  endValue : memory.itemValue (.listEnd list) = portMaxDelay

theorem empty_vListInitialise (list : κ) (memory : Memory ι κ) :
    Empty (vListInitialise list memory) list := by
  constructor <;> simp [vListInitialise, Memory.setIndex, Memory.setItemValue,
    Memory.setNext, Memory.setPrevious, Memory.setContainer,
    Memory.setNumberOfItems]

theorem Empty.vListInitialise {other : κ} (hempty : Empty memory list) :
    Empty (vListInitialise other memory) list := by
  by_cases hother : list = other
  · exact hother ▸ empty_vListInitialise other memory
  · have hnode : (.listEnd list : Node ι κ) ≠ .listEnd other :=
      fun heq => hother (Node.listEnd.inj heq)
    obtain ⟨hnext, hprevious, hindex, hcount, hvalue⟩ := hempty
    constructor <;> simpa [KernelList.vListInitialise, Memory.setIndex,
      Memory.setItemValue, Memory.setNext, Memory.setPrevious,
      Memory.setContainer, Memory.setNumberOfItems, hother]

theorem empty_initialise {lists : List κ}
    (hlist : Empty memory list ∨ list ∈ lists) :
    Empty (initialise lists memory) list := by
  induction lists generalizing memory with
  | nil => exact hlist.resolve_right List.not_mem_nil
  | cons head lists ih =>
      apply ih
      rcases hlist with hempty | hmem
      · exact .inl hempty.vListInitialise
      · rcases List.mem_cons.mp hmem with rfl | htail
        · exact .inl (empty_vListInitialise list memory)
        · exact .inr htail

theorem item_initialise (lists : List κ) (item : ι) (memory : Memory ι κ) :
    (initialise lists memory).container (.item item) =
        memory.container (.item item) ∧
      (initialise lists memory).itemValue (.item item) =
        memory.itemValue (.item item) := by
  induction lists generalizing memory with
  | nil => exact ⟨rfl, rfl⟩
  | cons head lists ih =>
      obtain ⟨hcontainer, hvalue⟩ := ih (vListInitialise head memory)
      exact ⟨hcontainer, hvalue⟩

/-- The store with the values of the items before any call. -/
def Setup.initialStore (setup : Setup ι κ) : Store ι κ where
  contents _ := []
  value item := setup.memory.itemValue (.item item)

theorem represents_initialise (setup : Setup ι κ) :
    Represents (initialise setup.lists setup.memory) setup.initialStore := by
  have hempty : ∀ list, Empty (initialise setup.lists setup.memory) list :=
    fun list => empty_initialise (.inr (setup.complete list))
  have hitem := fun item => item_initialise setup.lists item setup.memory
  constructor
  · exact fun list => .nil (hempty list).next (hempty list).previous
  · intro item list
    rw [(hitem item).1, setup.container_eq]
    simp [Setup.initialStore]
  · exact fun list => (hempty list).index
  · exact fun list => (hempty list).numberOfItems
  · exact fun list => (hempty list).endValue
  · exact fun item => (hitem item).2
  · exact fun item => Nat.le_sub_one_of_lt (setup.itemValue_lt item)

/-! ## Refinement -/

open Classical in
/-- What a call does to the store. -/
noncomputable def storeStep (store : Store ι κ) :
    Call ι κ → Option (Store ι κ)
  | .insertEnd list item =>
      if store.Free item then some (store.insertEnd list item) else none
  | .insert list item =>
      if store.Free item then some (store.insert list item) else none
  | .remove item => if store.Free item then none else some (store.remove item)
  | .setValue item value => some (store.setValue item (value % 2 ^ 32))

noncomputable def storeMachine (setup : Setup ι κ) :
    Machine (Store ι κ) (Call ι κ) where
  start := setup.initialStore
  step := storeStep

theorem Represents.setItemValue (hrep : Represents memory store) {value : ℕ}
    (hvalue : value ≤ portMaxDelay) :
    Represents (memory.setItemValue (.item item) value)
      (store.setValue item value) where
  ring := hrep.ring
  container := hrep.container
  index := hrep.index
  numberOfItems := hrep.numberOfItems
  endValue list := by
    simpa [Memory.setItemValue] using hrep.endValue list
  itemValue other := by
    by_cases hother : other = item
    · subst hother
      simp [Memory.setItemValue, Store.setValue]
    · simpa [Memory.setItemValue, Store.setValue, hother] using
        hrep.itemValue other
  value_le other := by
    by_cases hother : other = item
    · subst hother
      simpa [Store.setValue] using hvalue
    · simpa [Store.setValue, hother] using hrep.value_le other

/-- A call does to the memory what it does to the store, and the one allows it
exactly when the other does. -/
theorem Represents.step (hrep : Represents memory store) (call : Call ι κ) :
    Option.Rel Represents (step memory call) (storeStep store call) := by
  cases call with
  | insertEnd list item =>
      rw [KernelList.step, storeStep]
      by_cases hfree : store.Free item
      · rw [if_pos (hrep.free_iff.mpr hfree), if_pos hfree]
        exact .some (hrep.vListInsertEnd hfree)
      · rw [if_neg (mt hrep.free_iff.mp hfree), if_neg hfree]
        exact .none
  | insert list item =>
      rw [KernelList.step, storeStep]
      by_cases hfree : store.Free item
      · obtain ⟨after, hrun, hafter⟩ := hrep.vListInsert list hfree
        rw [if_pos (hrep.free_iff.mpr hfree), if_pos hfree, hrun]
        exact .some hafter
      · rw [if_neg (mt hrep.free_iff.mp hfree), if_neg hfree]
        exact .none
  | remove item =>
      rw [KernelList.step, storeStep]
      by_cases hfree : store.Free item
      · rw [if_pos hfree, KernelList.uxListRemove, hrep.free_iff.mpr hfree]
        exact .none
      · have hsome := mt hrep.free_iff.mp hfree
        rw [if_neg hfree]
        obtain ⟨list, hlist⟩ := Option.ne_none_iff_exists'.mp hsome
        obtain ⟨after, hrun, hafter⟩ :=
          hrep.uxListRemove ((hrep.container item list).mp hlist)
        rw [hrun]
        exact .some hafter
  | setValue item value =>
      apply Option.Rel.some
      apply hrep.setItemValue
      rw [portMaxDelay]
      exact Nat.le_sub_one_of_lt (Nat.mod_lt _ (by decide))

/-- Whatever calls are made in whatever order, the rings go through the
contents of the store, and no call of the store is refused by the rings. -/
theorem runs_represent (setup : Setup ι κ) (calls : List (Call ι κ)) :
    (∀ memory, (machine setup).Runs calls memory →
      ∃ store, (storeMachine setup).Runs calls store ∧
        Represents memory store) ∧
    ∀ store, (storeMachine setup).Runs calls store →
      ∃ memory, (machine setup).Runs calls memory ∧ Represents memory store :=
  Machine.Runs.bisimulation (machine setup) (storeMachine setup) Represents
    (represents_initialise setup)
    (fun _ _ call hrep => hrep.step call) calls

end Calls

end PicoSched.KernelList
