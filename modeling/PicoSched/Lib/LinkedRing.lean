import Mathlib.Data.List.Basic
import Mathlib.Data.List.Nodup
import Mathlib.Logic.Function.Basic

/-!
# Doubly linked rings

Nodes with a link forward and a link back.  A list of nodes is kept as a ring
that a sentinel closes: the last node links to the sentinel and the sentinel
links to the first one.
-/

namespace PicoSched.LinkedRing

variable {ν : Type*}

@[ext]
structure Links (ν : Type*) where
  next : ν → ν
  previous : ν → ν

variable {links links' : Links ν} {first last node : ν} {left right nodes : List ν}

/-! ## Paths -/

/-- The links lead from `first` through the nodes to `last`, and back. -/
def Path (links : Links ν) : ν → List ν → ν → Prop
  | first, [], last => links.next first = last ∧ links.previous last = first
  | first, node :: nodes, last =>
      links.next first = node ∧ links.previous node = first ∧
        Path links node nodes last

theorem path_append : Path links first (left ++ node :: right) last ↔
    Path links first left node ∧ Path links node right last := by
  induction left generalizing first with
  | nil => simp only [List.nil_append, Path, and_assoc]
  | cons head left ih => simp only [List.cons_append, Path, ih, and_assoc]

theorem Path.congr (hpath : Path links first nodes last)
    (hnext : ∀ node ∈ first :: nodes, links'.next node = links.next node)
    (hprevious : ∀ node ∈ last :: nodes,
      links'.previous node = links.previous node) :
    Path links' first nodes last := by
  induction nodes generalizing first with
  | nil =>
      rw [Path, hnext first (List.mem_cons_self ..),
        hprevious last (List.mem_cons_self ..)]
      exact hpath
  | cons head nodes ih =>
      obtain ⟨hhead, hback, hrest⟩ := hpath
      refine ⟨(hnext first (List.mem_cons_self ..)).trans hhead,
        (hprevious head (by simp)).trans hback, ih hrest ?_ ?_⟩
      · exact fun node hnode => hnext node (List.mem_cons_of_mem _ hnode)
      · intro node hnode
        rcases List.mem_cons.mp hnode with rfl | htail
        · exact hprevious node (List.mem_cons_self ..)
        · exact hprevious node (by simp [htail])

theorem Path.next_first (hpath : Path links first nodes last) :
    links.next first = (nodes ++ [last]).head (by simp) := by
  cases nodes with
  | nil => exact hpath.1
  | cons head nodes => exact hpath.1

/-- The node behind a prefix of the path. -/
theorem Path.next_getLast (hpath : Path links first (left ++ right) last) :
    links.next ((first :: left).getLast (List.cons_ne_nil _ _)) =
      (right ++ [last]).head (by simp) := by
  induction left generalizing first with
  | nil => exact hpath.next_first
  | cons head left ih =>
      rw [List.getLast_cons_cons]
      exact ih hpath.2.2

theorem Path.previous_last (hpath : Path links first nodes last) :
    links.previous last = (first :: nodes).getLast (List.cons_ne_nil _ _) := by
  induction nodes generalizing first with
  | nil => exact hpath.2
  | cons head nodes ih =>
      rw [List.getLast_cons_cons]
      exact ih hpath.2.2

/-! ## Rings -/

structure Ring (links : Links ν) (sentinel : ν) (nodes : List ν) : Prop where
  path : Path links sentinel nodes sentinel
  nodup : (sentinel :: nodes).Nodup

variable {sentinel : ν}

theorem Ring.nil (hnext : links.next sentinel = sentinel)
    (hprevious : links.previous sentinel = sentinel) :
    Ring links sentinel [] :=
  ⟨⟨hnext, hprevious⟩, List.nodup_singleton sentinel⟩

theorem Ring.congr (hring : Ring links sentinel nodes)
    (hnext : ∀ node ∈ sentinel :: nodes, links'.next node = links.next node)
    (hprevious : ∀ node ∈ sentinel :: nodes,
      links'.previous node = links.previous node) :
    Ring links' sentinel nodes :=
  ⟨hring.path.congr hnext hprevious, hring.nodup⟩

/-! ## Insertion -/

section Insertion

variable [DecidableEq ν] {before : ν}

/-- The node is linked in behind `before`. -/
def Links.insertAfter (before node : ν) (links : Links ν) : Links ν where
  next := Function.update
    (Function.update links.next node (links.next before)) before node
  previous := Function.update
    (Function.update links.previous node before) (links.next before) node

theorem Links.next_insertAfter_of_ne {other : ν} (hnode : other ≠ node)
    (hbefore : other ≠ before) :
    (links.insertAfter before node).next other = links.next other := by
  simp [insertAfter, hnode, hbefore]

theorem Links.previous_insertAfter_of_ne {other : ν} (hnode : other ≠ node)
    (hafter : other ≠ links.next before) :
    (links.insertAfter before node).previous other = links.previous other := by
  simp [insertAfter, hnode, hafter]

theorem Path.insert_first (hpath : Path links first right last)
    (hnodup : (first :: right).Nodup) (hlast : last ∉ right)
    (hfresh : node ∉ first :: right) (hne : node ≠ last) :
    Path (links.insertAfter first node) first (node :: right) last := by
  have hfirst : node ≠ first := fun heq => hfresh (heq ▸ List.mem_cons_self ..)
  cases right with
  | nil =>
      obtain ⟨rfl, -⟩ := hpath
      simp [Path, Links.insertAfter, hfirst, hne]
  | cons head right =>
      obtain ⟨rfl, -, hrest⟩ := hpath
      obtain ⟨hhead, htail⟩ := List.nodup_cons.mp hnodup
      have hother : node ≠ links.next first := fun heq =>
        hfresh (heq ▸ by simp)
      refine ⟨by simp [Links.insertAfter], ?_, ?_, ?_, hrest.congr ?_ ?_⟩
      · simp [Links.insertAfter, hother]
      · simp [Links.insertAfter, hfirst]
      · simp [Links.insertAfter]
      · intro other hmem
        apply Links.next_insertAfter_of_ne
        · exact fun heq => hfresh (List.mem_cons_of_mem _ (heq ▸ hmem))
        · exact fun heq => hhead (heq ▸ hmem)
      · intro other hmem
        apply Links.previous_insertAfter_of_ne
        · rintro rfl
          rcases List.mem_cons.mp hmem with heq | hmem
          · exact hne heq
          · exact hfresh (by simp [hmem])
        · rintro rfl
          rcases List.mem_cons.mp hmem with heq | hmem
          · exact hlast (heq ▸ List.mem_cons_self ..)
          · exact (List.nodup_cons.mp htail).1 hmem

theorem Path.insert (hpath : Path links first (left ++ right) last)
    (hnodup : (first :: (left ++ right)).Nodup) (hlast : last ∉ left ++ right)
    (hfresh : node ∉ first :: (left ++ right)) (hne : node ≠ last) :
    Path (links.insertAfter
        ((first :: left).getLast (List.cons_ne_nil _ _)) node)
      first (left ++ node :: right) last := by
  induction left generalizing first with
  | nil => exact hpath.insert_first hnodup hlast hfresh hne
  | cons head left ih =>
      obtain ⟨hhead, hback, hrest⟩ := hpath
      obtain ⟨hfirst, htail⟩ := List.nodup_cons.mp hnodup
      have hlast' : last ∉ left ++ right := fun hmem => hlast (by simp_all)
      rw [List.getLast_cons_cons]
      have hmem := List.getLast_mem (List.cons_ne_nil head left)
      have hafter := hrest.next_getLast
      refine ⟨?_, ?_, ih hrest htail hlast' (fun hmem =>
        hfresh (List.mem_cons_of_mem _ hmem))⟩
      · rw [Links.next_insertAfter_of_ne, hhead]
        · exact fun heq => hfresh (heq ▸ List.mem_cons_self ..)
        · exact fun heq => hfirst (heq ▸ List.mem_append_left right hmem)
      · rw [Links.previous_insertAfter_of_ne, hback]
        · exact fun heq => hfresh (by simp [heq])
        · -- the next node is in the rest of the path or its end
          intro heq
          have hnext := List.head_mem (l := right ++ [last]) (by simp)
          rw [← hafter, ← heq, List.mem_append, List.mem_singleton] at hnext
          rcases hnext with hright | rfl
          · exact (List.nodup_cons.mp htail).1 (List.mem_append_right left hright)
          · exact hlast (List.mem_cons_self ..)

theorem Ring.insert (hring : Ring links sentinel (left ++ right))
    (hfresh : node ∉ sentinel :: (left ++ right)) :
    Ring (links.insertAfter
        ((sentinel :: left).getLast (List.cons_ne_nil _ _)) node)
      sentinel (left ++ node :: right) where
  path := hring.path.insert hring.nodup (List.nodup_cons.mp hring.nodup).1 hfresh
    fun heq => hfresh (heq ▸ List.mem_cons_self ..)
  nodup := by
    have hmiddle : (sentinel :: left ++ node :: right).Nodup ↔
        (node :: (sentinel :: left ++ right)).Nodup := List.nodup_middle
    exact hmiddle.mpr (List.nodup_cons.mpr ⟨hfresh, hring.nodup⟩)

/-- The other rings are as they were. -/
theorem Ring.insert_frame (hring : Ring links sentinel nodes)
    (hnode : node ∉ sentinel :: nodes) (hbefore : before ∉ sentinel :: nodes)
    (hafter : links.next before ∉ sentinel :: nodes) :
    Ring (links.insertAfter before node) sentinel nodes := by
  apply hring.congr
  · intro other hmem
    exact Links.next_insertAfter_of_ne (fun heq => hnode (heq ▸ hmem))
      fun heq => hbefore (heq ▸ hmem)
  · intro other hmem
    exact Links.previous_insertAfter_of_ne (fun heq => hnode (heq ▸ hmem))
      fun heq => hafter (heq ▸ hmem)

end Insertion

/-! ## Removal -/

section Removal

variable [DecidableEq ν]

/-- The neighbours of the node are linked to each other. -/
def Links.unlink (node : ν) (links : Links ν) : Links ν where
  next := Function.update links.next (links.previous node) (links.next node)
  previous :=
    Function.update links.previous (links.next node) (links.previous node)

theorem Links.next_unlink_of_ne {other : ν}
    (hother : other ≠ links.previous node) :
    (links.unlink node).next other = links.next other :=
  Function.update_of_ne hother _ _

theorem Links.previous_unlink_of_ne {other : ν}
    (hother : other ≠ links.next node) :
    (links.unlink node).previous other = links.previous other :=
  Function.update_of_ne hother _ _

theorem Path.unlink_first (hpath : Path links first (node :: right) last)
    (hnodup : (first :: node :: right).Nodup) (hlast : last ∉ node :: right) :
    Path (links.unlink node) first right last := by
  obtain ⟨-, hback, hrest⟩ := hpath
  obtain ⟨hfirst, htail⟩ := List.nodup_cons.mp hnodup
  cases right with
  | nil =>
      obtain ⟨hnext, -⟩ := hrest
      simp [Path, Links.unlink, hback, hnext]
  | cons head right =>
      obtain ⟨hhead, -, hrest⟩ := hrest
      refine ⟨by simp [Links.unlink, hback, hhead],
        by simp [Links.unlink, hback, hhead], hrest.congr ?_ ?_⟩
      · intro other hmem
        apply Links.next_unlink_of_ne
        rw [hback]
        rintro rfl
        exact hfirst (List.mem_cons_of_mem _ hmem)
      · intro other hmem
        apply Links.previous_unlink_of_ne
        rw [hhead]
        rintro rfl
        rcases List.mem_cons.mp hmem with heq | hmem
        · exact hlast (by simp [heq])
        · exact (List.nodup_cons.mp (List.nodup_cons.mp htail).2).1 hmem

theorem Path.unlink (hpath : Path links first (left ++ node :: right) last)
    (hnodup : (first :: (left ++ node :: right)).Nodup)
    (hlast : last ∉ left ++ node :: right) :
    Path (links.unlink node) first (left ++ right) last := by
  induction left generalizing first with
  | nil => exact hpath.unlink_first hnodup hlast
  | cons head left ih =>
      obtain ⟨hhead, hback, hrest⟩ := hpath
      obtain ⟨hfirst, htail⟩ := List.nodup_cons.mp hnodup
      have hlast' : last ∉ left ++ node :: right := fun hmem =>
        hlast (List.mem_cons_of_mem _ hmem)
      obtain ⟨hbefore, hafter⟩ := path_append.mp hrest
      have hnext := hafter.next_first
      refine ⟨?_, ?_, ih hrest htail hlast'⟩
      · rw [Links.next_unlink_of_ne, hhead]
        rw [hbefore.previous_last]
        have hmem := List.getLast_mem (List.cons_ne_nil head left)
        exact fun heq => hfirst (heq ▸ List.mem_append_left _ hmem)
      · rw [Links.previous_unlink_of_ne, hback]
        intro heq
        have hmem := List.head_mem (l := right ++ [last]) (by simp)
        rw [← hnext, ← heq, List.mem_append,
          List.mem_singleton] at hmem
        rcases hmem with hright | rfl
        · exact (List.nodup_cons.mp htail).1 (by simp [hright])
        · exact hlast (List.mem_cons_self ..)

theorem Ring.unlink (hring : Ring links sentinel (left ++ node :: right)) :
    Ring (links.unlink node) sentinel (left ++ right) where
  path := hring.path.unlink hring.nodup (List.nodup_cons.mp hring.nodup).1
  nodup := by
    have hmiddle : (sentinel :: left ++ node :: right).Nodup ↔
        (node :: (sentinel :: left ++ right)).Nodup := List.nodup_middle
    exact (List.nodup_cons.mp (hmiddle.mp hring.nodup)).2

/-- The other rings are as they were. -/
theorem Ring.unlink_frame (hring : Ring links sentinel nodes)
    (hprevious : links.previous node ∉ sentinel :: nodes)
    (hnext : links.next node ∉ sentinel :: nodes) :
    Ring (links.unlink node) sentinel nodes := by
  apply hring.congr
  · intro other hmem
    exact Links.next_unlink_of_ne fun heq => hprevious (heq ▸ hmem)
  · intro other hmem
    exact Links.previous_unlink_of_ne fun heq => hnext (heq ▸ hmem)

end Removal

end PicoSched.LinkedRing
