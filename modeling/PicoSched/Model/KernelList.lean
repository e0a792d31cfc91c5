import Mathlib.Algebra.Group.Nat.Defs
import PicoSched.Lib.LinkedRing
import PicoSched.Lib.Transition

/-!
# The lists of the kernel

`list.c`: rings of list items that the end marker of a list closes.  `ι` are
the objects with a list item, `κ` the lists.  The integrity check values are
compiled out.
-/

namespace PicoSched.KernelList

open LinkedRing Transition

/-- `portMAX_DELAY`. -/
def portMaxDelay : ℕ := 2 ^ 32 - 1

/-- A `ListItem_t`: the item of an object or the `xListEnd` of a list. -/
inductive Node (ι κ : Type*) where
  | item (owner : ι)
  | listEnd (list : κ)
  deriving DecidableEq

@[ext]
structure Memory (ι κ : Type*) where
  /-- `pxNext` and `pxPrevious`. -/
  links : Links (Node ι κ)
  /-- `xItemValue`. -/
  itemValue : Node ι κ → ℕ
  /-- `pxContainer`. -/
  container : Node ι κ → Option κ
  /-- `pxIndex`. -/
  index : κ → Node ι κ
  /-- `uxNumberOfItems`. -/
  numberOfItems : κ → ℕ

variable {ι κ : Type*} [DecidableEq ι] [DecidableEq κ]

namespace Memory

def setNext (node target : Node ι κ) (memory : Memory ι κ) : Memory ι κ :=
  { memory with links := { memory.links with
      next := Function.update memory.links.next node target } }

def setPrevious (node target : Node ι κ) (memory : Memory ι κ) : Memory ι κ :=
  { memory with links := { memory.links with
      previous := Function.update memory.links.previous node target } }

def setItemValue (node : Node ι κ) (value : ℕ) (memory : Memory ι κ) :
    Memory ι κ :=
  { memory with itemValue := Function.update memory.itemValue node value }

def setContainer (node : Node ι κ) (container : Option κ)
    (memory : Memory ι κ) : Memory ι κ :=
  { memory with container := Function.update memory.container node container }

def setIndex (list : κ) (node : Node ι κ) (memory : Memory ι κ) : Memory ι κ :=
  { memory with index := Function.update memory.index list node }

def setNumberOfItems (list : κ) (count : ℕ) (memory : Memory ι κ) :
    Memory ι κ :=
  { memory with numberOfItems :=
      Function.update memory.numberOfItems list count }

end Memory

open Memory

/-! ## The functions -/

def vListInitialise (list : κ) (memory : Memory ι κ) : Memory ι κ :=
  let memory := memory.setIndex list (.listEnd list)
  let memory := memory.setItemValue (.listEnd list) portMaxDelay
  let memory := memory.setNext (.listEnd list) (.listEnd list)
  let memory := memory.setPrevious (.listEnd list) (.listEnd list)
  let memory := memory.setContainer (.listEnd list) none
  memory.setNumberOfItems list 0

def vListInsertEnd (list : κ) (newItem : ι) (memory : Memory ι κ) :
    Memory ι κ :=
  let index := memory.index list
  let memory := memory.setNext (.item newItem) index
  let memory := memory.setPrevious (.item newItem) (memory.links.previous index)
  let memory := memory.setNext (memory.links.previous index) (.item newItem)
  let memory := memory.setPrevious index (.item newItem)
  let memory := memory.setContainer (.item newItem) (some list)
  memory.setNumberOfItems list (memory.numberOfItems list + 1)

/-- The `for` loop of `vListInsert` from an iterator on.  `none` is a loop that
does not end within the fuel. -/
def insertionPoint (valueOfInsertion : ℕ) (memory : Memory ι κ) :
    ℕ → Node ι κ → Option (Node ι κ)
  | 0, iterator =>
      if memory.itemValue (memory.links.next iterator) ≤ valueOfInsertion then
        none
      else some iterator
  | fuel + 1, iterator =>
      if memory.itemValue (memory.links.next iterator) ≤ valueOfInsertion then
        insertionPoint valueOfInsertion memory fuel (memory.links.next iterator)
      else some iterator

/-- The item behind which `vListInsert` puts a value.  The loop of a list with
`n` items takes at most `n` steps. -/
def iteratorOf (list : κ) (valueOfInsertion : ℕ) (memory : Memory ι κ) :
    Option (Node ι κ) :=
  if valueOfInsertion = portMaxDelay then
    some (memory.links.previous (.listEnd list))
  else
    insertionPoint valueOfInsertion memory (memory.numberOfItems list)
      (.listEnd list)

def vListInsert (list : κ) (newItem : ι) (memory : Memory ι κ) :
    Option (Memory ι κ) :=
  match iteratorOf list (memory.itemValue (.item newItem)) memory with
  | none => none
  | some iterator =>
      let memory :=
        memory.setNext (.item newItem) (memory.links.next iterator)
      let memory := memory.setPrevious (memory.links.next (.item newItem))
        (.item newItem)
      let memory := memory.setPrevious (.item newItem) iterator
      let memory := memory.setNext iterator (.item newItem)
      let memory := memory.setContainer (.item newItem) (some list)
      some (memory.setNumberOfItems list (memory.numberOfItems list + 1))

/-- `uxListRemove` and the number of items that are left.  `none` is the access
through the NULL container of an item that is in no list. -/
def uxListRemove (item : ι) (memory : Memory ι κ) :
    Option (ℕ × Memory ι κ) :=
  match memory.container (.item item) with
  | none => none
  | some list =>
      let memory := memory.setPrevious (memory.links.next (.item item))
        (memory.links.previous (.item item))
      let memory := memory.setNext (memory.links.previous (.item item))
        (memory.links.next (.item item))
      let memory :=
        if memory.index list = .item item then
          memory.setIndex list (memory.links.previous (.item item))
        else memory
      let memory := memory.setContainer (.item item) none
      let memory :=
        memory.setNumberOfItems list (memory.numberOfItems list - 1)
      some (memory.numberOfItems list, memory)

/-! ## Calls -/

/-- The calls a kernel makes, with the item that they are about. -/
inductive Call (ι κ : Type*) where
  | insertEnd (list : κ) (item : ι)
  | insert (list : κ) (item : ι)
  | remove (item : ι)
  /-- `listSET_LIST_ITEM_VALUE`. -/
  | setValue (item : ι) (value : ℕ)

/-- An item is only inserted while it is in no list. -/
def step (memory : Memory ι κ) : Call ι κ → Option (Memory ι κ)
  | .insertEnd list item =>
      if memory.container (.item item) = none then
        some (vListInsertEnd list item memory)
      else none
  | .insert list item =>
      if memory.container (.item item) = none then
        vListInsert list item memory
      else none
  | .remove item => (uxListRemove item memory).map Prod.snd
  | .setValue item value =>
      some (memory.setItemValue (.item item) (value % 2 ^ 32))

/-- The lists of a kernel and the memory before they are initialised; the items
are initialised when their objects are created. -/
structure Setup (ι κ : Type*) where
  lists : List κ
  memory : Memory ι κ
  complete : ∀ list, list ∈ lists
  container_eq : ∀ item, memory.container (.item item) = none
  itemValue_lt : ∀ item, memory.itemValue (.item item) < 2 ^ 32

def initialise (lists : List κ) (memory : Memory ι κ) : Memory ι κ :=
  lists.foldl (fun memory list => vListInitialise list memory) memory

def machine (setup : Setup ι κ) : Machine (Memory ι κ) (Call ι κ) where
  start := initialise setup.lists setup.memory
  step := step

end PicoSched.KernelList
