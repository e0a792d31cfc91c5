import Mathlib.Algebra.Order.Ring.Rat
import Mathlib.Data.Multiset.Filter
import Mathlib.Data.Multiset.MapFold
import PicoSched.Allocation.Capacity

/-!
# Filling a core exactly

Every split uses up a slot, and there is one slot less than there are cores.
An overload therefore ends well only when some core is filled without a
split.  Whether that happens depends on the loads alone: on the pieces in
order and on the multiset of the open cores' loads.
-/

namespace PicoSched.Filling

/-- Filling the least loaded of the open `bins` with the pieces in order,
cutting off what does not fit and opening the `spare` bin when all are closed,
closes some bin without a cut. -/
inductive ClosesExactly (bound : ℚ) : List ℚ → Multiset ℚ → Option ℚ → Prop
  | fills {load piece : ℚ} {pieces : List ℚ} {bins : Multiset ℚ}
      {spare : Option ℚ} (hleast : ∀ other ∈ bins, load ≤ other)
      (hexact : load + piece = bound) :
      ClosesExactly bound (piece :: pieces) (load ::ₘ bins) spare
  | fits {load piece : ℚ} {pieces : List ℚ} {bins : Multiset ℚ}
      {spare : Option ℚ} (hleast : ∀ other ∈ bins, load ≤ other)
      (hroom : load + piece < bound)
      (hrest : ClosesExactly bound pieces ((load + piece) ::ₘ bins) spare) :
      ClosesExactly bound (piece :: pieces) (load ::ₘ bins) spare
  | cuts {load piece : ℚ} {pieces : List ℚ} {bins : Multiset ℚ}
      {spare : Option ℚ} (hleast : ∀ other ∈ bins, load ≤ other)
      (hover : bound < load + piece)
      (hrest : ClosesExactly bound ((piece - (bound - load)) :: pieces) bins
        spare) :
      ClosesExactly bound (piece :: pieces) (load ::ₘ bins) spare
  | opens {load : ℚ} {pieces : List ℚ}
      (hrest : ClosesExactly bound pieces {load} none) :
      ClosesExactly bound pieces 0 (some load)

namespace ClosesExactly

variable {bound load piece : ℚ} {pieces : List ℚ} {bins : Multiset ℚ}
  {spare : Option ℚ}

theorem not_closed : ¬ClosesExactly bound pieces 0 none := by
  intro hcloses
  generalize hbins : (0 : Multiset ℚ) = bins at hcloses
  generalize hspare : (none : Option ℚ) = spare at hcloses
  cases hcloses with
  | fills _ _ => exact Multiset.zero_ne_cons hbins
  | fits _ _ _ => exact Multiset.zero_ne_cons hbins
  | cuts _ _ _ => exact Multiset.zero_ne_cons hbins
  | opens _ => cases hspare

theorem opens_iff :
    ClosesExactly bound pieces 0 (some load) ↔
      ClosesExactly bound pieces {load} none := by
  constructor
  · intro hcloses
    generalize hbins : (0 : Multiset ℚ) = bins at hcloses
    generalize hspare : some load = spare at hcloses
    cases hcloses with
    | fills _ _ => exact absurd hbins Multiset.zero_ne_cons
    | fits _ _ _ => exact absurd hbins Multiset.zero_ne_cons
    | cuts _ _ _ => exact absurd hbins Multiset.zero_ne_cons
    | opens hrest => exact Option.some.inj hspare ▸ hrest
  · exact .opens

/-- The least load of a multiset determines the rest. -/
theorem least_unique {first second : ℚ} {rest rest' : Multiset ℚ}
    (hsame : first ::ₘ rest = second ::ₘ rest')
    (hfirst : ∀ other ∈ rest, first ≤ other)
    (hsecond : ∀ other ∈ rest', second ≤ other) :
    first = second ∧ rest = rest' := by
  have hle : first ≤ second := by
    have hmem : second ∈ first ::ₘ rest := hsame ▸ Multiset.mem_cons_self ..
    rcases Multiset.mem_cons.mp hmem with heq | hrest
    · exact heq.ge
    · exact hfirst second hrest
  have hge : second ≤ first := by
    have hmem : first ∈ second ::ₘ rest' := hsame ▸ Multiset.mem_cons_self ..
    rcases Multiset.mem_cons.mp hmem with heq | hrest
    · exact heq.ge
    · exact hsecond first hrest
  obtain rfl := le_antisymm hle hge
  exact ⟨rfl, (Multiset.cons_inj_right _).mp hsame⟩

/-- The next piece goes to the least loaded bin. -/
theorem cons_iff (hleast : ∀ other ∈ bins, load ≤ other) :
    ClosesExactly bound (piece :: pieces) (load ::ₘ bins) spare ↔
      load + piece = bound ∨
      (load + piece < bound ∧
        ClosesExactly bound pieces ((load + piece) ::ₘ bins) spare) ∨
      (bound < load + piece ∧
        ClosesExactly bound ((piece - (bound - load)) :: pieces) bins spare) := by
  constructor
  · intro hcloses
    generalize hpieces : piece :: pieces = queue at hcloses
    generalize hbins : load ::ₘ bins = all at hcloses
    cases hcloses with
    | fills hleast' hexact =>
        obtain ⟨rfl, rfl⟩ := least_unique hbins hleast hleast'
        obtain ⟨rfl, rfl⟩ := List.cons.inj hpieces
        exact .inl hexact
    | fits hleast' hroom hrest =>
        obtain ⟨rfl, rfl⟩ := least_unique hbins hleast hleast'
        obtain ⟨rfl, rfl⟩ := List.cons.inj hpieces
        exact .inr (.inl ⟨hroom, hrest⟩)
    | cuts hleast' hover hrest =>
        obtain ⟨rfl, rfl⟩ := least_unique hbins hleast hleast'
        obtain ⟨rfl, rfl⟩ := List.cons.inj hpieces
        exact .inr (.inr ⟨hover, hrest⟩)
    | opens _ => exact absurd hbins Multiset.cons_ne_zero
  · rintro (hexact | ⟨hroom, hrest⟩ | ⟨hover, hrest⟩)
    · exact .fills hleast hexact
    · exact .fits hleast hroom hrest
    · exact .cuts hleast hover hrest

end ClosesExactly

namespace Problem

variable {κ : Type*} [DecidableEq κ] {P : Problem κ}

/-- The loads of the ordinary cores that are still open. -/
def openLoads (P : Problem κ) (plan : Plan κ) : Multiset ℚ :=
  (P.normal.filter fun core => P.load plan core < P.bound).val.map (P.load plan)

/-- The loads of the open ordinary cores other than one of them. -/
def restLoads (P : Problem κ) (plan : Plan κ) (core : κ) : Multiset ℚ :=
  ((P.normal.erase core).filter fun other =>
    P.load plan other < P.bound).val.map (P.load plan)

/-- The load of the first reserve core while it is open. -/
def spareLoad (P : Problem κ) (plan : Plan κ) : Option ℚ :=
  (P.reserve.head?.filter fun core => P.load plan core < P.bound).map
    (P.load plan)

/-- Some core the phase may use has been filled without a split. -/
def FilledWhole (P : Problem κ) (plan : Plan κ) : Prop :=
  ∃ core, (core ∈ P.normal ∨ P.reserve.head? = some core) ∧
    P.bound ≤ P.load plan core ∧
    ∀ x ∈ plan.placed, x.core = core → x.body = false

/-- Some core is, or is going to be, filled without a split. -/
def Closes (P : Problem κ) (plan : Plan κ) : Prop :=
  P.FilledWhole plan ∨
    ClosesExactly P.bound (plan.queue.map Piece.load) (P.openLoads plan)
      (P.spareLoad plan)

variable {before after : Plan κ} {core : κ}

/-- The open loads without those of one ordinary core. -/
theorem openLoads_of_open (hcore : core ∈ P.normal)
    (hopen : P.load before core < P.bound) :
    P.openLoads before = P.load before core ::ₘ P.restLoads before core := by
  have hinsert : P.normal.filter (fun other => P.load before other < P.bound) =
      Finset.cons core ((P.normal.erase core).filter fun other =>
        P.load before other < P.bound) (by simp) := by
    ext other
    simp only [Finset.mem_filter, Finset.mem_cons, Finset.mem_erase]
    by_cases hother : other = core
    · subst hother
      simp [hcore, hopen]
    · simp [hother]
  rw [openLoads, hinsert, Finset.cons_val, Multiset.map_cons, restLoads]

theorem openLoads_of_full (hfull : P.bound ≤ P.load before core) :
    P.openLoads before = P.restLoads before core := by
  rw [openLoads, restLoads]
  congr 2
  ext other
  simp only [Finset.mem_filter, Finset.mem_erase]
  constructor
  · rintro ⟨hmem, hopen⟩
    exact ⟨⟨fun heq => (heq ▸ hopen).not_ge hfull, hmem⟩, hopen⟩
  · rintro ⟨⟨_, hmem⟩, hopen⟩
    exact ⟨hmem, hopen⟩

/-- A placement leaves the open loads of the other cores alone. -/
theorem Places.restLoads_eq (hplaces : P.Places core before after) :
    P.restLoads after core = P.restLoads before core := by
  have hsame : ∀ other ∈ P.normal.erase core,
      P.load after other = P.load before other := fun other hother =>
    hplaces.load_of_ne (Finset.ne_of_mem_erase hother)
  have hfilter : (P.normal.erase core).filter
      (fun other => P.load after other < P.bound) =
        (P.normal.erase core).filter fun other =>
          P.load before other < P.bound := by
    apply Finset.filter_congr
    intro other hother
    rw [hsame other hother]
  rw [restLoads, hfilter]
  apply Multiset.map_congr rfl
  intro other hother
  exact hsame other (Finset.mem_filter.mp hother).1

/-- The bins a placement works on: the target core is the least loaded one,
and it stays or leaves as its load says. -/
theorem Places.bins (hplaces : P.Places core before after)
    (htarget : P.Target before core) :
    ∃ (rest : Multiset ℚ) (spare : Option ℚ),
      (∀ other ∈ rest, P.load before core ≤ other) ∧
      (∀ pieces, ClosesExactly P.bound pieces (P.openLoads before)
          (P.spareLoad before) ↔
        ClosesExactly P.bound pieces (P.load before core ::ₘ rest) spare) ∧
      (P.load after core < P.bound → ∀ pieces,
        ClosesExactly P.bound pieces (P.openLoads after) (P.spareLoad after) ↔
          ClosesExactly P.bound pieces (P.load after core ::ₘ rest) spare) ∧
      (P.bound ≤ P.load after core → ∀ pieces,
        ClosesExactly P.bound pieces (P.openLoads after) (P.spareLoad after) ↔
          ClosesExactly P.bound pieces rest spare) := by
  have hopen := htarget.open_core
  cases htarget with
  | normal hmem _ hleast =>
      have hspare : P.spareLoad after = P.spareLoad before := by
        rw [spareLoad, spareLoad]
        cases hhead : P.reserve.head? with
        | none => rfl
        | some other =>
            have hne : other ≠ core := fun heq =>
              P.apart other (List.mem_of_head? hhead) (heq ▸ hmem)
            simp only [Option.filter_some, hplaces.load_of_ne hne]
            split <;> simp [hplaces.load_of_ne hne]
      refine ⟨P.restLoads before core, P.spareLoad before, ?_,
        fun pieces => ?_, fun hroom pieces => ?_, fun hfull pieces => ?_⟩
      · intro load hload
        obtain ⟨other, hother, rfl⟩ := Multiset.mem_map.mp hload
        exact hleast other
          (Finset.mem_of_mem_erase (Finset.mem_filter.mp hother).1)
      · rw [openLoads_of_open hmem hopen]
      · rw [openLoads_of_open hmem hroom, hplaces.restLoads_eq, hspare]
      · rw [openLoads_of_full hfull, hplaces.restLoads_eq, hspare]
  | reserve hfull hhead _ =>
      have hnormal : ∀ other ∈ P.normal,
          P.load after other = P.load before other := by
        intro other hother
        apply hplaces.load_of_ne
        rintro rfl
        exact P.apart other (List.mem_of_head? hhead) hother
      have hbefore : P.openLoads before = 0 := by
        rw [openLoads, Finset.filter_false_of_mem]
        · rfl
        · exact fun other hother => not_lt.mpr (hfull other hother)
      have hafter : P.openLoads after = 0 := by
        rw [openLoads, Finset.filter_false_of_mem]
        · rfl
        · intro other hother
          rw [hnormal other hother]
          exact not_lt.mpr (hfull other hother)
      refine ⟨0, none, by simp, fun pieces => ?_, fun hroom pieces => ?_,
        fun hclosed pieces => ?_⟩
      · rw [hbefore, spareLoad, hhead]
        simp only [Option.filter_some, hopen, decide_true, if_true,
          Option.map_some]
        exact ClosesExactly.opens_iff
      · rw [hafter, spareLoad, hhead]
        simp only [Option.filter_some, hroom, decide_true, if_true,
          Option.map_some]
        exact ClosesExactly.opens_iff
      · rw [hafter, spareLoad, hhead]
        rw [Option.filter_some_neg (by simpa using hclosed), Option.map_none]

/-- Which other cores have been filled whole does not change. -/
theorem Places.filledWhole_iff (hplaces : P.Places core before after)
    (hopen : P.load before core < P.bound)
    (hcore : P.load after core < P.bound ∨
      ∃ x ∈ after.placed, x.core = core ∧ x.body = true) :
    P.FilledWhole before ↔ P.FilledWhole after := by
  have hplaced : ∃ x, x.core = core ∧ after.placed = x :: before.placed := by
    cases hplaces with
    | fit _ => exact ⟨_, rfl, rfl⟩
    | split _ => exact ⟨_, rfl, rfl⟩
  obtain ⟨x, hx, hplaced⟩ := hplaced
  constructor
  · rintro ⟨other, hmem, hfull, hwhole⟩
    have hne : other ≠ core := fun heq => (heq ▸ hopen).not_ge hfull
    refine ⟨other, hmem, hplaces.load_of_ne hne ▸ hfull, ?_⟩
    rw [hplaced, List.forall_mem_cons]
    exact ⟨fun heq => absurd (heq.symm.trans hx) hne, hwhole⟩
  · rintro ⟨other, hmem, hfull, hwhole⟩
    have hne : other ≠ core := by
      rintro rfl
      rcases hcore with hroom | ⟨y, hy, hycore, hybody⟩
      · exact hroom.not_ge hfull
      · rw [hwhole y hy hycore] at hybody
        exact Bool.false_ne_true hybody
    refine ⟨other, hmem, hplaces.load_of_ne hne ▸ hfull, ?_⟩
    rw [hplaced, List.forall_mem_cons] at hwhole
    exact hwhole.2

/-- A placement neither brings an exact fill about nor rules one out. -/
theorem Places.closes_iff (hreach : P.Reaches before)
    (htarget : P.Target before core) (hplaces : P.Places core before after) :
    P.Closes before ↔ P.Closes after := by
  have hopen := htarget.open_core
  obtain ⟨rest, spare, hleast, hbefore, hroom, hfull⟩ := hplaces.bins htarget
  have hfilled := hplaces.filledWhole_iff hopen
  cases hplaces with
  | @fit placed piece pieces hfit =>
      have hload : P.load ⟨⟨piece, core, false⟩ :: placed, pieces⟩ core =
          P.load ⟨placed, piece :: pieces⟩ core + piece.load := by
        simp only [load, coreLoad_cons, if_true]
        ring
      rcases hfit.lt_or_eq with hless | hexact
      · rw [← hload] at hless
        have hinside := hless
        rw [hload] at hinside
        rw [Closes, Closes, hfilled (.inl hless), hbefore, List.map_cons,
          ClosesExactly.cons_iff hleast, hroom hless, hload]
        simp [hinside, hinside.ne, hinside.not_gt]
      · have hafter : P.FilledWhole
            ⟨⟨piece, core, false⟩ :: placed, pieces⟩ := by
          refine ⟨core, htarget.mem_or_head, (hload.trans hexact).ge, ?_⟩
          rw [List.forall_mem_cons]
          refine ⟨fun _ => rfl, fun x hx hxcore => ?_⟩
          by_contra hbody
          have hfilled' := hreach.body_full x hx (by simpa using hbody)
          exact hopen.ne (hxcore ▸ hfilled')
        constructor
        · exact fun _ => .inl hafter
        · intro _
          right
          rw [hbefore, List.map_cons, ClosesExactly.cons_iff hleast]
          exact .inl hexact
  | @split placed piece pieces slot hover =>
      have hload : P.load ⟨⟨{ piece with
            load := P.bound - P.load ⟨placed, piece :: pieces⟩ core },
          core, true⟩ :: placed, ⟨slot, piece.task, piece.load -
            (P.bound - P.load ⟨placed, piece :: pieces⟩ core)⟩ :: pieces⟩ core =
              P.bound := by
        simp only [load, coreLoad_cons, if_true]
        ring
      rw [Closes, Closes, hfilled (.inr ⟨_, List.mem_cons_self .., rfl, rfl⟩),
        hbefore, List.map_cons, ClosesExactly.cons_iff hleast, hfull hload.ge,
        List.map_cons]
      simp [hover, hover.ne', hover.not_gt]

/-- With a body on every core nothing is filled exactly any more. -/
theorem not_closes_of_bodies {plan : Plan κ}
    (hfull : ∀ core, P.bound ≤ P.load plan core)
    (hbodies : ∀ core, ∃ x ∈ plan.placed, x.core = core ∧ x.body = true) :
    ¬P.Closes plan := by
  rintro (⟨core, _, _, hwhole⟩ | hcloses)
  · obtain ⟨x, hx, hcore, hbody⟩ := hbodies core
    rw [hwhole x hx hcore] at hbody
    exact Bool.false_ne_true hbody
  · have hopen : P.openLoads plan = 0 := by
      rw [openLoads, Finset.filter_false_of_mem]
      · rfl
      · exact fun core _ => not_lt.mpr (hfull core)
    have hspare : P.spareLoad plan = none := by
      rw [spareLoad]
      cases P.reserve.head? with
      | none => rfl
      | some core =>
          rw [Option.filter_some_neg (by simpa using hfull core),
            Option.map_none]
    rw [hopen, hspare] at hcloses
    exact ClosesExactly.not_closed hcloses

/-- When the last slot is missing, every core has been or would be filled by a
split. -/
theorem Reaches.not_closes_of_no_slot [Fintype κ] {plan : Plan κ}
    (hreach : P.Reaches plan) {piece : Piece} {pieces : List Piece}
    (hqueue : plan.queue = piece :: pieces) (htarget : P.Target plan core)
    (hover : P.bound < P.load plan core + piece.load)
    (hcount : Fintype.card κ ≤
      (plan.placed.filter Placement.body).length + 1) : ¬P.Closes plan := by
  have hopen := htarget.open_core
  have hhosts := hreach.hosts_of_bodies hopen hcount
  have hfull := hreach.full_of_bodies hopen hcount
  obtain ⟨placed, queue⟩ := plan
  obtain rfl : queue = piece :: pieces := hqueue
  -- the split that would come next, into any slot
  have hsplit : P.Places core ⟨placed, piece :: pieces⟩ _ :=
    @Places.split κ _ P core placed piece pieces 0 hover
  rw [hsplit.closes_iff hreach htarget]
  apply not_closes_of_bodies
  · intro other
    by_cases hother : other = core
    · subst hother
      simp only [load, coreLoad_cons, if_true]
      linarith
    · rw [hsplit.load_of_ne hother]
      exact (hfull other hother).ge
  · intro other
    by_cases hother : other = core
    · exact ⟨_, List.mem_cons_self .., hother.symm, rfl⟩
    · obtain ⟨x, hx, hxcore, hbody⟩ := hhosts other hother
      exact ⟨x, List.mem_cons_of_mem _ hx, hxcore, hbody⟩

/-- When all cores are full and there are fewer bodies than cores, some core
was filled exactly. -/
theorem Reaches.closes_of_full [Fintype κ] {plan : Plan κ}
    (hreach : P.Reaches plan)
    (hcores : ∀ core, core ∈ P.normal ∨ P.reserve.head? = some core)
    (hfull : ∀ core, P.bound ≤ P.load plan core)
    (hcount : (plan.placed.filter Placement.body).length < Fintype.card κ) :
    P.Closes plan := by
  have hcard := List.toFinset_card_of_nodup hreach.bodies_nodup
  rw [List.length_map] at hcard
  obtain ⟨core, hcore⟩ : ∃ core, core ∉ ((plan.placed.filter
      Placement.body).map Placement.core).toFinset := by
    by_contra hall
    have huniv := Finset.eq_univ_iff_forall.mpr fun core =>
      not_not.mp fun hcore => hall ⟨core, hcore⟩
    rw [huniv, Finset.card_univ] at hcard
    exact hcount.ne hcard.symm
  refine .inl ⟨core, hcores core, hfull core, fun x hx hxcore => ?_⟩
  by_contra hbody
  apply hcore
  rw [List.mem_toFinset, ← hxcore]
  exact List.mem_map_of_mem (List.mem_filter.mpr ⟨hx, by simpa using hbody⟩)

/-- Whether a core is filled exactly is settled before the phase starts. -/
theorem Reaches.closes_iff {plan : Plan κ} (hreach : P.Reaches plan) :
    P.Closes ⟨[], P.pieces⟩ ↔ P.Closes plan := by
  induction hreach using Reaches.induct with
  | start => exact Iff.rfl
  | step before after core hreach ih htarget hplaces =>
      exact ih.trans (hplaces.closes_iff hreach htarget)

end Problem

end PicoSched.Filling
