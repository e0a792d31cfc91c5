import PicoSched.Allocation.Domination
import PicoSched.Allocation.FinalMemory
import PicoSched.Runtime.TickSchedule

/-!
# The guarantee of SPA2

When the allocation ends with an empty queue, no job of the schedule it sets up
misses its deadline, as long as every split cuts between two ticks.  The bodies
of a task execute one after the other as soon as it is released, so its last
piece has a fixed part of every period left, and the packing leaves room for it
there.
-/

namespace PicoSched.Refinement

open Filling FixedPriority Kernel Loop TaskManager Main PreAssign
  TickSchedule

variable {cfg : Config} {creates : ℕ → Option TaskHandle}
  {table : TaskTable cfg} {final : State cfg}
  {chain : Fin cfg.numOfTask → List (TaskPtr cfg)}
  {index : Fin cfg.numOfTask} {slot body tail : TaskPtr cfg}
  {pre post : List (TaskPtr cfg)} {x y : Placement (CorePtr cfg)}
  {core : CorePtr cfg}

/-- The pieces of a task in the order in which they execute, and their share
of every job: it is done by the next release, and no piece starts on a job that
the piece before it has not finished. -/
structure JobsMet (table : TaskTable cfg) (memory : Memory cfg)
    (index : Fin cfg.numOfTask) (pieces : List (TaskPtr cfg)) : Prop where
  members : ∀ slot, slot ∈ pieces ↔ PieceOf memory index slot
  nodup : pieces.Nodup
  runtime : (pieces.map fun slot => (memory.taskList slot).runtime).sum =
    (table.task index).runtime
  executed : ∀ slot ∈ pieces, ∀ n, (n + 1) * (memory.taskList slot).runtime ≤
    executedAt memory
      (n * (table.task index).period + (table.task index).period) slot
  ordered : pieces.IsChain fun body tail => ∀ n t,
    n * (memory.taskList tail).runtime < executedAt memory t tail →
      (n + 1) * (memory.taskList body).runtime ≤ executedAt memory t body

/-- No job of any task misses in the schedule a finished run sets up. -/
def NeverMisses (creates : ℕ → Option TaskHandle) (table : TaskTable cfg) :
    Prop :=
  ∀ final, spa2 creates table = .done final →
    ∀ index, ∃ pieces, JobsMet table final.memory index pieces

/-- The task lists of the guarantee, with a handle for each of their pieces. -/
structure Guaranteed (creates : ℕ → Option TaskHandle) (table : TaskTable cfg) :
    Prop where
  distinct : DistinctHandles creates
  created : ∀ call, creates call ≠ none
  sized : Sized table
  period : Monotone fun index => (table.task index).period
  priority : StrictAnti fun index => (table.task index).priority
  bound : (cfg.utilizationBound : ℝ) ≤
    cfg.numOfTask * (2 ^ (1 / cfg.numOfTask : ℝ) - 1)
  whole : WholeSplits table

theorem Guaranteed.bound_le_one (hlist : Guaranteed creates table) :
    cfg.utilizationBound ≤ 1 :=
  FixedPriority.bound_le_one cfg.tasks_pos hlist.bound

theorem Guaranteed.runtime_le (hlist : Guaranteed creates table)
    (index : Fin cfg.numOfTask) :
    (table.task index).runtime ≤ (table.task index).period :=
  hlist.sized.runtime_le hlist.bound_le_one index

theorem mem_of_append
    (hpieces : (chain index).reverse = pre ++ slot :: post) :
    slot ∈ chain index := by
  rw [← List.mem_reverse, hpieces]
  exact List.mem_append_right _ (List.mem_cons_self ..)

/-- The slots on the core of a piece that belong to tasks before its own. -/
def aboveSlots (table : TaskTable cfg) (x : Placement (CorePtr cfg)) :
    Finset (TaskPtr cfg) :=
  ((spa2Problem table).above (packing table) x).image slotOf

theorem of_mem_insert_aboveSlots
    (hslot : slot ∈ insert (slotOf x) (aboveSlots table x)) :
    ∃ y ∈ insert x ((spa2Problem table).above (packing table) x),
      slotOf y = slot := by
  rw [aboveSlots, ← Finset.image_insert] at hslot
  exact Finset.mem_image.mp hslot

namespace Packed

variable (hpacked : Packed creates table final chain)

include hpacked

/-! ## The cores -/

theorem mem_pinned_slotOf
    (hx : x ∈ (packing table).placed ++ (spa2Problem table).given) :
    slotOf x ∈ pinned final.memory x.core := by
  rw [mem_pinned]
  exact hpacked.head.represents.assigned_of_placement hx (hpacked.val_slotOf hx)

/-- Everything pinned to a core is placed on it. -/
theorem exists_of_pinned (hslot : slot ∈ pinned final.memory core) :
    ∃ x ∈ (spa2Problem table).onCore (packing table) core, slot = slotOf x := by
  rw [mem_pinned] at hslot
  obtain ⟨x, hx, hval, hcore⟩ :=
    hpacked.head.represents.placement_of_assigned hslot
  exact ⟨x, Problem.mem_onCore.mpr ⟨hx, hcore.symm⟩,
    Fin.ext (hval.trans (hpacked.val_slotOf hx).symm)⟩

/-- Priorities fall with the index of the task. -/
theorem priority_lt_iff
    (hpriority : StrictAnti fun index => (table.task index).priority)
    (hx : x ∈ (packing table).placed ++ (spa2Problem table).given)
    (hy : y ∈ (packing table).placed ++ (spa2Problem table).given) :
    (final.memory.taskList (slotOf y)).priority <
        (final.memory.taskList (slotOf x)).priority ↔
      x.piece.task < y.piece.task := by
  obtain ⟨first, hfirst, _, hfirstPriority, _⟩ := (hpacked.carries hx).origin
  obtain ⟨second, hsecond, _, hsecondPriority, _⟩ := (hpacked.carries hy).origin
  rw [hfirstPriority, hsecondPriority, ← hfirst, ← hsecond, ← Fin.lt_def]
  exact hpriority.lt_iff_gt

theorem partitioned
    (hpriority : StrictAnti fun index => (table.task index).priority) :
    Partitioned final.memory := by
  constructor
  · intro slot first second hfirst hsecond
    obtain ⟨x, hx, hslot, hcore⟩ :=
      hpacked.head.represents.placement_of_assigned hfirst
    obtain ⟨y, hy, hslot', hcore'⟩ :=
      hpacked.head.represents.placement_of_assigned hsecond
    have hsame := hpacked.head.represents.placement_eq hx hy
      (hslot.symm.trans hslot')
    exact (hcore.trans (congrArg Placement.core hsame)).trans hcore'.symm
  · intro core slot hslot other hother hequal
    obtain ⟨x, hx, rfl⟩ := hpacked.exists_of_pinned hslot
    obtain ⟨y, hy, rfl⟩ := hpacked.exists_of_pinned hother
    have hless := hpacked.priority_lt_iff hpriority
      (Problem.mem_onCore.mp hx).1 (Problem.mem_onCore.mp hy).1
    have hgreater := hpacked.priority_lt_iff hpriority
      (Problem.mem_onCore.mp hy).1 (Problem.mem_onCore.mp hx).1
    have htask : x.piece.task = y.piece.task := by omega
    rw [hpacked.head.reaches.eq_of_core hx hy htask]

/-! ## The chains -/

theorem link_of_append
    (hpieces : (chain index).reverse = pre ++ body :: tail :: post) :
    Link final.memory tail body := by
  have hlinked := (hpacked.chains.each index).linked
  rw [← List.reverse_reverse (chain index), List.isChain_reverse,
    List.isChain_iff_forall_rel_of_append_cons_cons] at hlinked
  exact hlinked hpieces

theorem period_of_mem (hslot : slot ∈ chain index) :
    (final.memory.taskList slot).period = (table.task index).period :=
  (hpacked.chains.origin hpacked.head.represents hslot).1

/-- The pieces of a task have its runtime in common. -/
theorem sum_runtime
    (hpieces : (chain index).reverse = pre ++ slot :: post) :
    (pre.map fun slot => (final.memory.taskList slot).runtime).sum +
        ((final.memory.taskList slot).runtime +
          (post.map fun slot => (final.memory.taskList slot).runtime).sum) =
      (table.task index).runtime := by
  have hruntime := (hpacked.chains.each index).runtime
  rwa [← List.sum_reverse, ← List.map_reverse, hpieces, List.map_append,
    List.sum_append, List.map_cons, List.sum_cons] at hruntime

theorem mem_chain
    (hx : x ∈ (packing table).placed ++ (spa2Problem table).given) :
    slotOf x ∈ chain ⟨x.piece.task, hpacked.task_lt hx⟩ := by
  rw [hpacked.chains.member, hpacked.val_slotOf hx]
  exact List.mem_append_right _
    (List.mem_map_of_mem (f := fun x => (x.piece.slot, x.piece.task)) hx)

section Guarantee

variable (hlist : Guaranteed creates table)

include hlist

theorem coreSchedule (core : CorePtr cfg) :
    CoreSchedule (pinned final.memory core).toFinset
      (fun slot other => (final.memory.taskList other).priority <
        (final.memory.taskList slot).priority)
      (fun slot => (final.memory.taskList slot).runtime)
      (fun slot t => readyJobs final.memory (executedAt final.memory t) t
        cfg.maxNumTasks slot)
      (fun slot t => executedAt final.memory t slot)
      (fun t => running final.memory (executedAt final.memory t) t core) :=
  (hpacked.partitioned hlist.priority).coreSchedule core

/-- The piece before a piece in its chain resumes it. -/
theorem predecessor_eq (hlink : Link final.memory tail body) :
    predecessor final.memory tail = some body := by
  have hrep := hpacked.head.represents
  have hcreates : ∀ call < final.memory.currIdx, creates call ≠ none :=
    fun call _ => hlist.created call
  have hunique :=
    hpacked.chains.body_unique hrep hlist.distinct hcreates hlink
  have hpointer := (hlink.handle hrep hcreates).2
  obtain ⟨found, hfound, _, hpointer'⟩ :=
    exists_predecessor hpointer hlink.splittedPtr
  rw [hfound, hunique.unique hpointer' hlink.splittedPtr]

theorem runtime_pos (hslot : slot ∈ chain index) :
    0 < (final.memory.taskList slot).runtime := by
  obtain ⟨x, hx, rfl, _⟩ := hpacked.exists_placement hslot
  have htimed := hpacked.timed hlist.sized hlist.whole hlist.period
  have hcost := mul_pos (htimed.load_pos x hx)
    (Nat.cast_pos.mpr (htimed.period_pos x hx))
  rw [← htimed.cost_eq x hx] at hcost
  exact Nat.cast_pos.mp hcost

/-! ## Arrivals along a chain -/

/-- A body executes every job at its release. -/
theorem body_executed_iff
    (hpieces : (chain index).reverse = pre ++ body :: tail :: post)
    {first : ℕ} (harrived : ∀ t, readyJobs final.memory
        (executedAt final.memory t) t cfg.maxNumTasks body =
      arrivals first (table.task index).period (t + 1)) (n t : ℕ) :
    (n + 1) * (final.memory.taskList body).runtime ≤
        executedAt final.memory t body ↔
      first + n * (table.task index).period +
        (final.memory.taskList body).runtime ≤ t := by
  have hrep := hpacked.head.represents
  have hbody := mem_of_append hpieces
  have hpointer := ((hpacked.link_of_append hpieces).handle hrep
    fun call _ => hlist.created call).2
  have hle : (final.memory.taskList body).runtime ≤
      (table.task index).period := by
    have hsum := hpacked.sum_runtime hpieces
    have hruntime := hlist.runtime_le index
    omega
  have hpos := hpacked.runtime_pos hlist hbody
  obtain ⟨x, hx, rfl, _⟩ := hpacked.exists_placement hbody
  have hmem := hpacked.mem_pinned_slotOf hx
  have hdominates := hrep.bodiesDominate hpacked.head.reaches rfl hlist.priority
  have htop : ∀ other ∈ (pinned final.memory x.core).toFinset,
      ¬(final.memory.taskList (slotOf x)).priority <
        (final.memory.taskList other).priority := by
    intro other hother hless
    rw [List.mem_toFinset, mem_pinned] at hother
    rw [mem_pinned] at hmem
    have hne : slotOf x ≠ other := by
      rintro rfl
      exact lt_irrefl _ hless
    exact hless.not_gt (hdominates.highest _ hmem _ hother rfl hne hpointer)
  exact (hpacked.coreSchedule hlist x.core).le_executed_iff
    (List.mem_toFinset.mpr hmem) htop hpos (hpos.trans_le hle) hle harrived n t

/-- The jobs of a piece become ready when the pieces before it have executed
since the release of the task. -/
theorem readyJobs_eq
    (hpieces : (chain index).reverse = pre ++ slot :: post) (t : ℕ) :
    readyJobs final.memory (executedAt final.memory t) t cfg.maxNumTasks slot =
      arrivals (pre.map fun slot => (final.memory.taskList slot).runtime).sum
        (table.task index).period (t + 1) := by
  induction pre using List.reverseRecOn generalizing slot post t with
  | nil =>
      have hmem := mem_of_append hpieces
      have hfirst := (hpacked.chains.each index).first
      rw [← List.head?_reverse, hpieces, List.nil_append,
        List.head?_cons] at hfirst
      obtain rfl : slot = cfg.original index := Option.some.inj hfirst
      have hready := readyJobs_first (hpacked.first index)
        (hpacked.period_of_mem hmem ▸ hlist.sized.period_pos index)
        (executedAt final.memory t) t
      rw [hready, hpacked.period_of_mem hmem]
      rfl
  | append_singleton pre body ih =>
      rw [List.append_assoc, List.singleton_append] at hpieces
      have hlink := hpacked.link_of_append hpieces
      have hpos := hpacked.runtime_pos hlist (mem_of_append hpieces)
      rw [readyJobs_tail hlink.dependency (hpacked.predecessor_eq hlist hlink)
        hpos]
      -- the jobs the body has finished
      apply eq_of_forall_lt_iff
      intro n
      rw [Nat.lt_iff_add_one_le, Nat.le_div_iff_mul_le hpos,
        hpacked.body_executed_iff hlist hpieces (ih hpieces),
        lt_arrivals_iff (hlist.sized.period_pos index), List.map_append,
        List.sum_append, List.map_singleton, List.sum_singleton]
      omega

/-- The jobs of every piece on a core become ready periodically. -/
theorem exists_offset (core : CorePtr cfg) :
    ∃ offset : TaskPtr cfg → ℕ, ∀ slot ∈ pinned final.memory core, ∀ t,
      readyJobs final.memory (executedAt final.memory t) t cfg.maxNumTasks
          slot =
        arrivals (offset slot) (final.memory.taskList slot).period (t + 1) := by
  have hperiodic : ∀ slot, ∃ first, slot ∈ pinned final.memory core → ∀ t,
      readyJobs final.memory (executedAt final.memory t) t cfg.maxNumTasks
          slot =
        arrivals first (final.memory.taskList slot).period (t + 1) := by
    intro slot
    by_cases hslot : slot ∈ pinned final.memory core
    · obtain ⟨x, hx, rfl⟩ := hpacked.exists_of_pinned hslot
      have hmem := hpacked.mem_chain (Problem.mem_onCore.mp hx).1
      obtain ⟨pre, post, hpieces⟩ :=
        List.append_of_mem (List.mem_reverse.mpr hmem)
      rw [hpacked.period_of_mem hmem]
      exact ⟨_, fun _ => hpacked.readyJobs_eq hlist hpieces⟩
    · exact ⟨0, fun hpinned => absurd hpinned hslot⟩
  choose offset hoffset using hperiodic
  exact ⟨offset, hoffset⟩

/-! ## The slots above the last piece of a task -/

section Above

variable (hx : x ∈ (packing table).placed ++ (spa2Problem table).given)

include hx

omit hlist in
theorem mem_pinned_of_above
    (hy : y ∈ insert x ((spa2Problem table).above (packing table) x)) :
    slotOf y ∈ pinned final.memory x.core := by
  obtain ⟨hmem, hcore⟩ :=
    Problem.mem_onCore.mp (Problem.of_mem_insert_above hx hy).1
  exact hcore ▸ hpacked.mem_pinned_slotOf hmem

omit hlist in
theorem slotOf_injOn_above :
    Set.InjOn slotOf ((insert x ((spa2Problem table).above (packing table) x) :
      Finset (Placement (CorePtr cfg))) : Set (Placement (CorePtr cfg))) := by
  intro y hy z hz hslot
  exact hpacked.slotOf_injOn
    (Problem.mem_onCore.mp (Problem.of_mem_insert_above hx hy).1).1
    (Problem.mem_onCore.mp (Problem.of_mem_insert_above hx hz).1).1 hslot

omit hlist in
theorem aboveSlots_subset :
    aboveSlots table x ⊆ (pinned final.memory x.core).toFinset := by
  intro slot hslot
  obtain ⟨y, hy, rfl⟩ :=
    of_mem_insert_aboveSlots (Finset.mem_insert_of_mem hslot)
  exact List.mem_toFinset.mpr (hpacked.mem_pinned_of_above hx hy)

omit hlist in
theorem not_mem_aboveSlots : slotOf x ∉ aboveSlots table x := by
  intro hself
  obtain ⟨y, hy, hslot⟩ := Finset.mem_image.mp hself
  have hsame := hpacked.slotOf_injOn_above hx
    (Finset.mem_coe.mpr (Finset.mem_insert_of_mem hy))
    (Finset.mem_coe.mpr (Finset.mem_insert_self ..)) hslot
  rw [hsame] at hy
  exact lt_irrefl _ (Problem.mem_above.mp hy).2

/-- What has a higher priority on the core is above. -/
theorem aboveSlots_closed :
    ∀ slot ∈ insert (slotOf x) (aboveSlots table x),
      ∀ other ∈ (pinned final.memory x.core).toFinset,
        (final.memory.taskList slot).priority <
            (final.memory.taskList other).priority →
          other ∈ aboveSlots table x := by
  intro slot hslot other hother hhigher
  obtain ⟨y, hy, rfl⟩ := of_mem_insert_aboveSlots hslot
  obtain ⟨hycore, hle⟩ := Problem.of_mem_insert_above hx hy
  obtain ⟨z, hz, rfl⟩ := hpacked.exists_of_pinned (List.mem_toFinset.mp hother)
  have hless := (hpacked.priority_lt_iff hlist.priority
    (Problem.mem_onCore.mp hz).1 (Problem.mem_onCore.mp hycore).1).mp hhigher
  exact Finset.mem_image_of_mem slotOf
    (Problem.mem_above.mpr ⟨hz, hless.trans_le hle⟩)

theorem period_pos_above :
    ∀ slot ∈ insert (slotOf x) (aboveSlots table x),
      0 < (final.memory.taskList slot).period := by
  intro slot hslot
  obtain ⟨y, hy, rfl⟩ := of_mem_insert_aboveSlots hslot
  have hcore := (Problem.of_mem_insert_above hx hy).1
  have hmem := hpacked.mem_chain (Problem.mem_onCore.mp hcore).1
  rw [hpacked.period_of_mem hmem]
  exact hlist.sized.period_pos _

omit hlist in
/-- The demand of the slots above is the demand of the pieces. -/
theorem demand_aboveSlots (length : ℕ) :
    demand (final.memory.taskList (slotOf x)).runtime (aboveSlots table x)
        (fun slot => (final.memory.taskList slot).period)
        (fun slot => (final.memory.taskList slot).runtime) length =
      demand (final.memory.taskList (slotOf x)).runtime
        ((spa2Problem table).above (packing table) x)
        (fun y => periodTicks table y.piece.task)
        (fun y => (final.memory.taskList (slotOf y)).runtime) length := by
  rw [aboveSlots, demand_image ((hpacked.slotOf_injOn_above hx).mono
    (Finset.coe_subset.mpr (Finset.subset_insert ..)))]
  apply demand_congr
  intro y hy
  have hcore := Problem.of_mem_insert_above hx (Finset.mem_insert_of_mem hy)
  exact hpacked.period_eq (Problem.mem_onCore.mp hcore.1).1

/-- What the bodies of a task leave of its period. -/
theorem cast_deadline (hpieces : (chain index).reverse = pre ++ [slotOf x])
    (htask : x.piece.task = index) (hlast : x.body = false) :
    (((table.task index).period -
        (pre.map fun slot => (final.memory.taskList slot).runtime).sum : ℕ) :
          ℚ) =
      (1 - bodyLoad (packing table).placed x.piece.task) *
        periodTicks table x.piece.task := by
  have hsum := hpacked.sum_runtime hpieces
  have hruntime := hlist.runtime_le index
  have hload := hpacked.bodyLoad_add_load hx hlast
  have hcost := hpacked.runtime_eq hlist.whole hx
  have hpos : ((table.task index).period : ℚ) ≠ 0 :=
    Nat.cast_ne_zero.mpr (hlist.sized.period_pos index).ne'
  rw [htask, load_original, eq_div_iff hpos, add_mul] at hload
  rw [htask, periodTicks_val] at hcost ⊢
  rw [List.map_nil, List.sum_nil, add_zero] at hsum
  have hcast : ((pre.map fun slot =>
      (final.memory.taskList slot).runtime).sum : ℚ) +
        (final.memory.taskList (slotOf x)).runtime =
      (table.task index).runtime := by
    exact_mod_cast hsum
  rw [Nat.cast_sub (by omega), sub_mul, one_mul]
  linarith

/-- The last piece of a task and the slots above it are served within what the
bodies leave of its period. -/
theorem exists_served (hpieces : (chain index).reverse = pre ++ [slotOf x])
    (htask : x.piece.task = index) (hlast : x.body = false) :
    ∃ length ≤ (table.task index).period -
        (pre.map fun slot => (final.memory.taskList slot).runtime).sum,
      demand (final.memory.taskList (slotOf x)).runtime (aboveSlots table x)
        (fun slot => (final.memory.taskList slot).period)
        (fun slot => (final.memory.taskList slot).runtime) length ≤ length := by
  have htimed := hpacked.timed hlist.sized hlist.whole hlist.period
  have hbalanced := spa2_balanced hlist.sized.load_le_bound
    (fun _ => hlist.sized.load_pos) hlist.bound_le_one
  have hbodies : bodyLoad (packing table).placed x.piece.task < 1 := by
    have hload := hpacked.bodyLoad_add_load hx hlast
    have hle := (hlist.sized.load_le_bound x.piece.task).trans
      hlist.bound_le_one
    have hpos := htimed.load_pos x hx
    linarith
  obtain ⟨length, hlength, hserved⟩ := hpacked.head.reaches.exists_demand_le
    hbalanced htimed hlist.bound hx hlast hbodies
    (hpacked.cast_deadline hlist hx hpieces htask hlast)
  rw [← hpacked.demand_aboveSlots hx] at hserved
  exact ⟨length, hlength, hserved⟩

end Above

/-! ## Every piece -/

/-- The last piece of a task is done by the next release. -/
theorem last_executed (hpieces : (chain index).reverse = pre ++ [slot])
    (n : ℕ) :
    (n + 1) * (final.memory.taskList slot).runtime ≤ executedAt final.memory
      (n * (table.task index).period + (table.task index).period) slot := by
  have hmem := mem_of_append hpieces
  have hhead : (chain index).head? = some slot := by
    rw [← List.getLast?_reverse, hpieces, List.getLast?_concat]
  obtain ⟨x, hx, rfl, htask⟩ := hpacked.exists_placement hmem
  have hlast := hpacked.whole_of_head hx hhead hlist.created
  have hpinned := hpacked.mem_pinned_slotOf hx
  obtain ⟨offset, hoffset⟩ := hpacked.exists_offset hlist x.core
  have hfirst : offset (slotOf x) =
      (pre.map fun slot => (final.memory.taskList slot).runtime).sum := by
    apply offset_eq (hlist.sized.period_pos index)
    intro t
    rw [← hpacked.readyJobs_eq hlist hpieces t, hoffset _ hpinned,
      hpacked.period_of_mem hmem]
  have harrived : ∀ other ∈ insert (slotOf x) (aboveSlots table x), ∀ t,
      readyJobs final.memory (executedAt final.memory t) t cfg.maxNumTasks
          other =
        arrivals (offset other) (final.memory.taskList other).period
          (t + 1) := by
    intro other hother
    obtain ⟨y, hy, rfl⟩ := of_mem_insert_aboveSlots hother
    exact hoffset _ (hpacked.mem_pinned_of_above hx hy)
  have hdeadline : (table.task index).period -
      (pre.map fun slot => (final.memory.taskList slot).runtime).sum ≤
        (final.memory.taskList (slotOf x)).period := by
    rw [hpacked.period_of_mem hmem]
    exact Nat.sub_le _ _
  have hmet := (hpacked.coreSchedule hlist x.core).met
    (List.mem_toFinset.mpr hpinned) (hpacked.aboveSlots_subset hx)
    (hpacked.not_mem_aboveSlots hx) (hpacked.aboveSlots_closed hlist hx)
    (hpacked.period_pos_above hlist hx) harrived
    (hpacked.exists_served hlist hx hpieces htask hlast) hdeadline n
  have htime : (pre.map fun slot => (final.memory.taskList slot).runtime).sum +
      n * (table.task index).period + ((table.task index).period -
        (pre.map fun slot => (final.memory.taskList slot).runtime).sum) =
      n * (table.task index).period + (table.task index).period := by
    have hsum := hpacked.sum_runtime hpieces
    have hruntime := hlist.runtime_le index
    omega
  rw [hfirst, hpacked.period_of_mem hmem, htime] at hmet
  exact hmet

/-- Every piece of a task has done its part of every job by the next
release. -/
theorem executed_in_time (hslot : slot ∈ chain index) (n : ℕ) :
    (n + 1) * (final.memory.taskList slot).runtime ≤ executedAt final.memory
      (n * (table.task index).period + (table.task index).period) slot := by
  obtain ⟨pre, post, hpieces⟩ :=
    List.append_of_mem (List.mem_reverse.mpr hslot)
  cases post with
  | nil => exact hpacked.last_executed hlist hpieces n
  | cons next post =>
      have hsum := hpacked.sum_runtime hpieces
      have hruntime := hlist.runtime_le index
      rw [hpacked.body_executed_iff hlist hpieces
        (hpacked.readyJobs_eq hlist hpieces)]
      omega

/-- No piece starts on a job that the piece before it has not finished. -/
theorem executed_in_order
    (hpieces : (chain index).reverse = pre ++ body :: tail :: post) {n t : ℕ}
    (hstarted : n * (final.memory.taskList tail).runtime <
      executedAt final.memory t tail) :
    (n + 1) * (final.memory.taskList body).runtime ≤
      executedAt final.memory t body := by
  have hpieces' : (chain index).reverse = (pre ++ [body]) ++ tail :: post := by
    rw [hpieces, List.append_assoc, List.singleton_append]
  obtain ⟨x, hx, rfl, _⟩ := hpacked.exists_placement (mem_of_append hpieces')
  -- the tail has the job, so it was released and the body has executed since
  have harrived := (hpacked.coreSchedule hlist x.core).executed_le
    (List.mem_toFinset.mpr (hpacked.mem_pinned_slotOf hx))
    (hlist.sized.period_pos index) (hpacked.readyJobs_eq hlist hpieces') t
  have hjob : n < arrivals ((pre ++ [body]).map fun slot =>
      (final.memory.taskList slot).runtime).sum
        (table.task index).period t := by
    rw [Nat.mul_comm] at hstarted
    exact lt_of_mul_lt_mul_left (hstarted.trans_le harrived) (Nat.zero_le _)
  rw [lt_arrivals_iff (hlist.sized.period_pos index), List.map_append,
    List.sum_append, List.map_singleton, List.sum_singleton] at hjob
  rw [hpacked.body_executed_iff hlist hpieces
    (hpacked.readyJobs_eq hlist hpieces)]
  omega

theorem jobsMet (index : Fin cfg.numOfTask) :
    JobsMet table final.memory index (chain index).reverse := by
  have hchain := hpacked.splitChain hlist.distinct
    (fun call _ => hlist.created call) index
  constructor
  · exact hchain.members
  · exact hchain.nodup
  · exact hchain.runtime
  · intro slot hslot
    exact hpacked.executed_in_time hlist (List.mem_reverse.mp hslot)
  · rw [List.isChain_iff_forall_rel_of_append_cons_cons]
    intro body tail pre post hpieces n t
    exact hpacked.executed_in_order hlist hpieces

end Guarantee

end Packed

/-- If the splits of a task list cut between two ticks, no job of the schedule
that SPA2 sets up for it ever misses. -/
theorem neverMisses (hdistinct : DistinctHandles creates)
    (hcreates : ∀ call, creates call ≠ none) (hsized : Sized table)
    (hperiod : Monotone fun index => (table.task index).period)
    (hpriority : StrictAnti fun index => (table.task index).priority)
    (hbound : (cfg.utilizationBound : ℝ) ≤
      cfg.numOfTask * (2 ^ (1 / cfg.numOfTask : ℝ) - 1))
    (hwhole : WholeSplits table) : NeverMisses creates table := by
  intro final hrun index
  obtain ⟨chain, hpacked⟩ := exists_packed hsized hrun
  exact ⟨_, hpacked.jobsMet ⟨hdistinct, hcreates, hsized, hperiod, hpriority,
    hbound, hwhole⟩ index⟩

theorem distinctHandles_some : DistinctHandles some := by
  intro first second handle hfirst hsecond
  exact (Option.some.inj hfirst).trans (Option.some.inj hsecond).symm

theorem crowdedConfig_bound : (crowdedConfig.utilizationBound : ℝ) ≤
    crowdedConfig.numOfTask *
      (2 ^ (1 / crowdedConfig.numOfTask : ℝ) - 1) := by
  apply le_of_pow_le_two crowdedConfig.tasks_pos crowdedConfig.bound_pos.le
  decide +kernel

/-- Three of the four ticks of the first task fill its first core. -/
def wholeTable : TaskTable crowdedConfig :=
  TaskTable.ofRows crowdedConfig ![.mk 4 6 3, .mk 4 7 2, .mk 2 8 1]

theorem wholeTable_neverMisses :
    NeverMisses some wholeTable ∧ ∃ final, spa2 some wholeTable = .done final ∧
      final.memory.splits.length = 1 := by
  constructor
  · apply neverMisses distinctHandles_some (fun _ => Option.some_ne_none _)
    · constructor <;> decide +kernel
    · intro first second
      revert first second
      decide +kernel
    · intro first second
      revert first second
      decide +kernel
    · exact crowdedConfig_bound
    · decide +kernel
  · have hfinal : (spa2 some wholeTable).final.map
        (fun state => state.memory.splits.length) = some 1 := by
      decide +kernel
    obtain ⟨final, hstate, hsplits⟩ := Option.map_eq_some_iff.mp hfinal
    exact ⟨final, Outcome.eq_done_of_final hstate, hsplits⟩

/-- The first core has room for 23 twelfths of a tick of the first task. -/
def cutTable : TaskTable crowdedConfig :=
  TaskTable.ofRows crowdedConfig ![.mk 2 3 3, .mk 5 7 2, .mk 1 9 1]

/-- The ticks executed of the first task's body, the other two tasks, and the
first task's tail. -/
def cutTrace (t : ℕ) (slot : TaskPtr crowdedConfig) : ℕ :=
  let rows : List (List ℕ) :=
    [[0, 0, 0, 0], [1, 1, 0, 0], [1, 1, 1, 1], [1, 2, 1, 1], [2, 3, 1, 1],
      [2, 3, 1, 2], [2, 4, 1, 2], [3, 5, 1, 2], [3, 5, 1, 3], [3, 6, 1, 3],
      [4, 7, 1, 3], [4, 7, 2, 4], [4, 8, 2, 4], [5, 9, 2, 4], [5, 9, 2, 5]]
  (rows.getD t []).getD slot 0

/-- The body gets one tick and the tail another one, on the core that the second
task needs for five ticks in seven: its second job is a tick short. -/
theorem cutTable_misses :
    (Sized cutTable ∧
      (Monotone fun index => (cutTable.task index).period) ∧
      (StrictAnti fun index => (cutTable.task index).priority) ∧
      totalLoad cutTable ≤
        crowdedConfig.numberOfCores * crowdedConfig.utilizationBound ∧
      (crowdedConfig.utilizationBound : ℝ) ≤ crowdedConfig.numOfTask *
        (2 ^ (1 / crowdedConfig.numOfTask : ℝ) - 1)) ∧
      ¬NeverMisses some cutTable := by
  refine ⟨⟨?_, ?_, ?_, ?_, crowdedConfig_bound⟩, ?_⟩
  · constructor <;> decide +kernel
  · intro first second
    revert first second
    decide +kernel
  · intro first second
    revert first second
    decide +kernel
  · decide +kernel
  · intro hnever
    have hfinal : (spa2 some cutTable).final.any (fun state =>
        decide (BeginsWith state.memory cutTrace 14) &&
          (state.memory.taskList (crowdedConfig.original ⟨1, by decide⟩)).runtime
            == 5) = true := by
      decide +kernel
    rw [Option.any_eq_true] at hfinal
    obtain ⟨final, hstate, hfinal⟩ := hfinal
    rw [Bool.and_eq_true, decide_eq_true_iff, beq_iff_eq] at hfinal
    obtain ⟨hbegins, hruntime⟩ := hfinal
    obtain ⟨pieces, hmet⟩ := hnever final (Outcome.eq_done_of_final hstate)
      ⟨1, by decide⟩
    have hjob := hmet.executed _ ((hmet.members _).mpr .refl) 1
    have hperiod : (cutTable.task ⟨1, by decide⟩).period = 7 := by decide +kernel
    rw [hruntime, hperiod, hbegins.executedAt_eq _ (by norm_num)] at hjob
    exact absurd hjob (by decide +kernel)

end PicoSched.Refinement
