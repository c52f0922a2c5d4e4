import EagerHeap.Proofs.Arena.Partition
/-!
# Deals with blocks

Three things are done with the pages of an arena: a block is carved from the end of the carved part,
a run is carved, and a carved run is released. `Dealt` says which pages such a sequence of deals
leaves. What happened last to a block decides where the pages keep it: the released runs hold exactly
the blocks that were released and not carved again, and every other carved block is a single one or
belongs to exactly one outstanding run.

Main result: `Dealt.loses_no_block`.
-/

namespace EagerHeap

/-- What is done with the pages of an arena. -/
inductive Deal where
  /-- A block is carved from the end of the carved part. -/
  | bumped (i : Nat)
  /-- A run is carved. -/
  | carved (r : Run)
  /-- A carved run is released. -/
  | released (r : Run)
deriving DecidableEq, Repr

namespace Deal

/-- The deal hands out the block. -/
def Carves : Deal → Nat → Prop
  | bumped i, j => j = i
  | carved r, j => r.start ≤ j ∧ j < r.stop
  | released _, _ => False

/-- The deal takes the block back. -/
def Returns : Deal → Nat → Prop
  | released r, j => r.start ≤ j ∧ j < r.stop
  | _, _ => False

/-- The block was released and not carved again. The latest deal comes first. -/
def Spare : List Deal → Nat → Prop
  | [], _ => False
  | d :: ds, j => d.Returns j ∨ Spare ds j ∧ ¬ d.Carves j

/-- The block was never carved. -/
def Untouched (ds : List Deal) (j : Nat) : Prop := ∀ d ∈ ds, ¬ d.Carves j

/-- The runs that were carved and not released yet. The latest deal comes first. -/
def outstanding : List Deal → List Run
  | [] => []
  | bumped _ :: ds => outstanding ds
  | carved r :: ds => r :: outstanding ds
  | released r :: ds => (outstanding ds).erase r

instance decidableCarves (d : Deal) : DecidablePred d.Carves := fun j =>
  match d with
  | bumped i => inferInstanceAs (Decidable (j = i))
  | carved r => inferInstanceAs (Decidable (r.start ≤ j ∧ j < r.stop))
  | released _ => inferInstanceAs (Decidable False)

instance decidableReturns (d : Deal) : DecidablePred d.Returns := fun j =>
  match d with
  | bumped _ => inferInstanceAs (Decidable False)
  | carved _ => inferInstanceAs (Decidable False)
  | released r => inferInstanceAs (Decidable (r.start ≤ j ∧ j < r.stop))

instance decidableSpare : (ds : List Deal) → DecidablePred (Spare ds)
  | [], _ => inferInstanceAs (Decidable False)
  | d :: ds, j =>
    have := decidableSpare ds j
    inferInstanceAs (Decidable (d.Returns j ∨ Spare ds j ∧ ¬ d.Carves j))

instance decidableUntouched (ds : List Deal) : DecidablePred (Untouched ds) := fun j =>
  inferInstanceAs (Decidable (∀ d ∈ ds, ¬ d.Carves j))

theorem untouched_cons
    {d : Deal} {ds : List Deal} {j : Nat} :
    Untouched (d :: ds) j ↔ ¬ d.Carves j ∧ Untouched ds j :=
  List.forall_mem_cons

end Deal

namespace Run

variable {l : List Run} {r s : Run} {n i : Nat}

/-- Of two tidy runs that meet at the end of one, both are the same. -/
theorem Tidy.eq_of_meets
    (hl : Tidy l)
    (hr : r ∈ l)
    (hs : s ∈ l)
    (hstart : s.start ≤ r.stop)
    (hstop : r.stop < s.stop) :
    r = s := by
  by_contra hne
  have hle : r.start ≤ r.stop := Nat.le_add_right ..
  have happart : l.Pairwise fun r s => r.stop < s.start ∨ s.stop < r.start :=
    hl.apart.imp Or.inl
  have : Std.Symm fun r s : Run => r.stop < s.start ∨ s.stop < r.start := ⟨fun _ _ h => h.symm⟩
  rcases happart.forall hr hs hne with h | h <;> omega

/-- Consecutive blocks that tidy runs cover lie in one run. -/
theorem Tidy.covers_consecutive
    (hl : Tidy l)
    (hn : 0 < n)
    (hi : ∀ j, i ≤ j → j < i + n → Covers l j) :
    ∃ r ∈ l, r.start ≤ i ∧ i + n ≤ r.stop := by
  obtain ⟨r, hr, hle, hlt⟩ := hi i (Nat.le_refl i) (Nat.lt_add_of_pos_right hn)
  refine ⟨r, hr, hle, ?_⟩
  -- The first block past the run would lie in a run that meets this one.
  by_contra hover
  obtain ⟨s, hs, hsle, hslt⟩ := hi r.stop (Nat.le_of_lt hlt) (Nat.lt_of_not_le hover)
  cases hl.eq_of_meets hr hs hsle hslt
  exact Nat.lt_irrefl _ hslt

theorem takeFirstFit_eq_none :
    takeFirstFit n l = none ↔ ∀ r ∈ l, r.length < n := by
  induction l with
  | nil => simp [takeFirstFit]
  | cons r l ih =>
      rw [takeFirstFit, List.forall_mem_cons, ← ih]
      split
      · simp only [reduceCtorEq, false_iff]
        omega
      · rw [Option.map_eq_none_iff]
        exact ⟨fun h => ⟨by omega, h⟩, And.right⟩

end Run

namespace Pages

variable {p : Pages} {n : Nat}

theorem bump_eq_none : p.bump n = none ↔ p.limit - p.next < n := by
  unfold bump
  split
  · exact iff_of_true rfl ‹_›
  · exact iff_of_false (Option.some_ne_none _) ‹_›

/-- There is no run to carve if no released run is as long and the rest of the arena is shorter. -/
theorem carve_eq_none
    (ht : Run.Tidy p.released)
    (hn : 0 < n) :
    p.carve n = none ↔
      (¬ ∃ i, ∀ j, i ≤ j → j < i + n → p.Free j) ∧ p.limit - p.next < n := by
  have hfit : Run.takeFirstFit n p.released = none ↔
      ¬ ∃ i, ∀ j, i ≤ j → j < i + n → p.Free j := by
    rw [Run.takeFirstFit_eq_none]
    constructor
    · rintro hshort ⟨i, hi⟩
      obtain ⟨r, hr, hle, hstop⟩ := ht.covers_consecutive hn hi
      have := hshort r hr
      rw [Run.stop] at hstop
      omega
    · intro hnone r hr
      refine Nat.lt_of_not_le fun hlong => hnone ⟨r.start, fun j hj hlt => ⟨r, hr, hj, ?_⟩⟩
      rw [Run.stop]
      omega
  rw [← hfit, ← bump_eq_none, carve]
  cases Run.takeFirstFit n p.released with
  | none => exact (and_iff_right rfl).symm
  | some q => exact iff_of_false (Option.some_ne_none _) fun h => Option.some_ne_none _ h.1

end Pages

/-- The deals with an arena of `limit` blocks, the latest first, and the pages that they leave. -/
inductive Dealt (limit : Nat) : List Deal → Pages → Prop where
  | nothing : Dealt limit [] (Pages.empty limit)
  | bump {ds : List Deal} {p p' : Pages} {i : Nat}
      (hd : Dealt limit ds p)
      (hi : p.bump 1 = some (i, p')) :
      Dealt limit (.bumped i :: ds) p'
  | carve {ds : List Deal} {p p' : Pages} {i n : Nat}
      (hd : Dealt limit ds p)
      (hn : 0 < n)
      (hi : p.carve n = some (i, p')) :
      Dealt limit (.carved ⟨i, n⟩ :: ds) p'
  | release {ds : List Deal} {p : Pages} {r : Run}
      (hd : Dealt limit ds p)
      (hr : r ∈ Deal.outstanding ds) :
      Dealt limit (.released r :: ds) (p.release r)

namespace Deal

variable {limit start n : Nat} {ds : List Deal} {d : Deal} {p p' : Pages} {r : Run}

/-- The pages keep the blocks that the deals left with them. -/
structure Kept (limit : Nat) (ds : List Deal) (p : Pages) : Prop where
  limit_eq : p.limit = limit
  next_le : p.next ≤ limit
  tidy : Run.Tidy p.released
  spare : ∀ j, p.Free j ↔ Spare ds j
  untouched : ∀ j, Untouched ds j ↔ p.next ≤ j
  below : ∀ j, p.Free j → j < p.next

/-- Each carved block that is not spare is a single one or belongs to exactly one outstanding run. -/
structure Lent (ds : List Deal) : Prop where
  positive : ∀ r ∈ outstanding ds, 0 < r.length
  apart : (outstanding ds).Pairwise fun r s =>
    ∀ j, ¬ ((r.start ≤ j ∧ j < r.stop) ∧ s.start ≤ j ∧ j < s.stop)
  run : ∀ j, Run.Covers (outstanding ds) j → ¬ Spare ds j ∧ ¬ Untouched ds j ∧ bumped j ∉ ds
  single : ∀ j, bumped j ∈ ds → ¬ Spare ds j
  whole : ∀ j, Untouched ds j ∨ Spare ds j ∨ bumped j ∈ ds ∨ Run.Covers (outstanding ds) j

theorem kept_nothing (limit : Nat) : Kept limit [] (.empty limit) where
  limit_eq := rfl
  next_le := Nat.zero_le _
  tidy := Run.tidy_nil
  spare j := iff_of_false (Run.covers_nil j) id
  untouched j := iff_of_true (fun _ h => nomatch h) (Nat.zero_le j)
  below j h := absurd h (Run.covers_nil j)

theorem lent_nothing : Lent [] where
  positive _ h := nomatch h
  apart := List.Pairwise.nil
  run j h := absurd h (Run.covers_nil j)
  single _ h := nomatch h
  whole _ := Or.inl fun _ h => nomatch h

/-! ### Carving -/

/-- The pages after blocks were carved from the released runs or from the end. -/
def Taken (p p' : Pages) (start n : Nat) : Prop :=
  (p'.next = p.next ∧ p'.limit = p.limit ∧ Run.Tidy p'.released ∧
      (∀ j, start ≤ j → j < start + n → p.Free j) ∧
      ∀ j, p'.Free j ↔ p.Free j ∧ ¬ (start ≤ j ∧ j < start + n)) ∨
    (start = p.next ∧ n ≤ p.limit - p.next ∧ p' = { p with next := p.next + n })

/-- Only blocks below the limit that are spare or untouched are carved. -/
theorem Kept.spare_or_untouched
    {j : Nat}
    (hk : Kept limit ds p)
    (ht : Taken p p' start n)
    (hj : start ≤ j ∧ j < start + n) :
    j < limit ∧ (Spare ds j ∨ Untouched ds j) := by
  have hlimit := hk.limit_eq
  have hle := hk.next_le
  rcases ht with ⟨-, -, -, hfree, -⟩ | ⟨rfl, hn, -⟩
  · have hf := hfree j hj.1 hj.2
    have := hk.below j hf
    exact ⟨by omega, Or.inl ((hk.spare j).1 hf)⟩
  · exact ⟨by omega, Or.inr ((hk.untouched j).2 hj.1)⟩

theorem Kept.taken_le
    (hk : Kept limit ds p)
    (hn : 0 < n)
    (ht : Taken p p' start n) :
    start + n ≤ limit := by
  have hlast := (hk.spare_or_untouched ht (j := start + (n - 1)) ⟨by omega, by omega⟩).1
  omega

/-- Blocks that are carved were neither single ones nor part of an outstanding run. -/
theorem Kept.not_lent
    {j : Nat}
    (hk : Kept limit ds p)
    (hl : Lent ds)
    (ht : Taken p p' start n)
    (hj : start ≤ j ∧ j < start + n) :
    bumped j ∉ ds ∧ ¬ Run.Covers (outstanding ds) j := by
  rcases (hk.spare_or_untouched ht hj).2 with hs | hu
  · exact ⟨fun hb => hl.single j hb hs, fun hc => (hl.run j hc).1 hs⟩
  · exact ⟨fun hb => hu _ hb rfl, fun hc => (hl.run j hc).2.1 hu⟩

section Carved

variable
  (hd : ∀ j, d.Carves j ↔ start ≤ j ∧ j < start + n)
  (hr : ∀ j, ¬ d.Returns j)

include hd hr in
theorem spare_carved (j : Nat) :
    Spare (d :: ds) j ↔ Spare ds j ∧ ¬ (start ≤ j ∧ j < start + n) := by
  rw [Spare, or_iff_right (hr j), hd]

include hd hr in
theorem Kept.carved
    (hk : Kept limit ds p)
    (ht : Taken p p' start n) :
    Kept limit (d :: ds) p' := by
  have hlimit := hk.limit_eq
  have hle := hk.next_le
  rcases ht with ⟨hnext, hlim, htidy, hin, hfree⟩ | ⟨rfl, hn, rfl⟩
  · refine ⟨hlim.trans hlimit, by omega, htidy, fun j => ?_, fun j => ?_, fun j hj => ?_⟩
    · rw [hfree, hk.spare, spare_carved hd hr]
    · rw [untouched_cons, hd, hk.untouched, hnext]
      refine ⟨And.right, fun h => ⟨fun hj => ?_, h⟩⟩
      have := hk.below j (hin j hj.1 hj.2)
      omega
    · exact hnext.symm ▸ hk.below j ((hfree j).1 hj).1
  · refine ⟨hlimit, ?_, hk.tidy, fun j => ?_, fun j => ?_, fun j hj => ?_⟩
    · dsimp only
      omega
    · rw [spare_carved hd hr, ← hk.spare]
      refine ⟨fun hj => ⟨hj, ?_⟩, And.left⟩
      have := hk.below j hj
      omega
    · rw [untouched_cons, hd, hk.untouched]
      dsimp only
      omega
    · exact Nat.lt_of_lt_of_le (hk.below j hj) (Nat.le_add_right ..)

end Carved

theorem Lent.bumped
    (hk : Kept limit ds p)
    (hl : Lent ds)
    (ht : Taken p p' start 1) :
    Lent (bumped start :: ds) := by
  have hspare : ∀ {j}, Spare (Deal.bumped start :: ds) j → Spare ds j ∧ j ≠ start :=
    fun hj => hj.resolve_left id
  obtain ⟨hsingle, hout⟩ := hk.not_lent hl ht ⟨Nat.le_refl start, Nat.lt_succ_self start⟩
  refine ⟨hl.positive, hl.apart, fun j hj => ?_, fun j hj hs => ?_, fun j => ?_⟩
  · obtain ⟨hs, hu, hb⟩ := hl.run j hj
    refine ⟨fun h => hs (hspare h).1, fun h => hu (untouched_cons.1 h).2, fun h => ?_⟩
    rcases List.mem_cons.1 h with heq | h
    · cases heq
      exact hout hj
    · exact hb h
  · obtain ⟨hs, hne⟩ := hspare hs
    rcases List.mem_cons.1 hj with heq | hj
    · exact hne (Deal.bumped.inj heq)
    · exact hl.single j hj hs
  · by_cases hj : j = start
    · exact Or.inr (Or.inr (Or.inl (hj ▸ List.mem_cons_self ..)))
    · rcases hl.whole j with hu | hs | hb | hc
      · exact Or.inl (untouched_cons.2 ⟨hj, hu⟩)
      · exact Or.inr (Or.inl (Or.inr ⟨hs, hj⟩))
      · exact Or.inr (Or.inr (Or.inl (List.mem_cons_of_mem _ hb)))
      · exact Or.inr (Or.inr (Or.inr hc))

theorem Lent.carved
    (hk : Kept limit ds p)
    (hl : Lent ds)
    (hn : 0 < n)
    (ht : Taken p p' start n) :
    Lent (carved ⟨start, n⟩ :: ds) := by
  have hspare : ∀ {j}, Spare (Deal.carved ⟨start, n⟩ :: ds) j →
      Spare ds j ∧ ¬ (start ≤ j ∧ j < start + n) :=
    fun hj => hj.resolve_left id
  have hmem : ∀ {j}, Deal.bumped j ∈ Deal.carved ⟨start, n⟩ :: ds → Deal.bumped j ∈ ds :=
    fun hb => (List.mem_cons.1 hb).resolve_left Deal.noConfusion
  have hnew := fun j => hk.not_lent hl ht (j := j)
  refine ⟨?_, ?_, fun j hj => ?_, fun j hj hs => hl.single j (hmem hj) (hspare hs).1, fun j => ?_⟩
  · exact List.forall_mem_cons.2 ⟨hn, hl.positive⟩
  · refine List.pairwise_cons.2 ⟨fun s hs j hj => ?_, hl.apart⟩
    exact (hnew j hj.1).2 ⟨s, hs, hj.2⟩
  · rcases Run.covers_cons.1 hj with hj | hj
    · exact ⟨fun h => (hspare h).2 hj, fun h => (untouched_cons.1 h).1 hj,
        fun h => (hnew j hj).1 (hmem h)⟩
    · obtain ⟨hs, hu, hb⟩ := hl.run j hj
      exact ⟨fun h => hs (hspare h).1, fun h => hu (untouched_cons.1 h).2, fun h => hb (hmem h)⟩
  · by_cases hj : start ≤ j ∧ j < start + n
    · exact Or.inr (Or.inr (Or.inr (Run.covers_cons.2 (Or.inl hj))))
    · rcases hl.whole j with hu | hs | hb | hc
      · exact Or.inl (untouched_cons.2 ⟨hj, hu⟩)
      · exact Or.inr (Or.inl (Or.inr ⟨hs, hj⟩))
      · exact Or.inr (Or.inr (Or.inl (List.mem_cons_of_mem _ hb)))
      · exact Or.inr (Or.inr (Or.inr (Run.covers_cons.2 (Or.inr hc))))

/-! ### Releasing -/

theorem spare_released {j : Nat} :
    Spare (released r :: ds) j ↔ Spare ds j ∨ (r.start ≤ j ∧ j < r.stop) := by
  simp only [Spare, Carves, Returns, not_false_iff, and_true, or_comm]

theorem untouched_released {j : Nat} : Untouched (released r :: ds) j ↔ Untouched ds j := by
  simp only [untouched_cons, Carves, not_false_iff, true_and]

theorem bumped_mem_released {j : Nat} : bumped j ∈ released r :: ds ↔ bumped j ∈ ds := by
  simp only [List.mem_cons, reduceCtorEq, false_or]

section Released

variable (hk : Kept limit ds p) (hl : Lent ds) (hr : r ∈ outstanding ds)

include hk hl hr in
theorem Kept.released : Kept limit (released r :: ds) (p.release r) := by
  have hrun : ∀ j, r.start ≤ j → j < r.stop → ¬ Spare ds j ∧ ¬ Untouched ds j := by
    intro j hj hlt
    obtain ⟨hs, hu, -⟩ := hl.run j ⟨r, hr, hj, hlt⟩
    exact ⟨hs, hu⟩
  refine ⟨hk.limit_eq, hk.next_le, ?_, fun j => ?_, fun j => ?_, fun j hj => ?_⟩
  · exact Pages.tidy_release hk.tidy (hl.positive r hr)
      fun j hj hlt hf => (hrun j hj hlt).1 ((hk.spare j).1 hf)
  · rw [Pages.free_release, hk.spare, spare_released]
  · rw [untouched_released]
    exact hk.untouched j
  · rcases (Pages.free_release p r j).1 hj with hf | ⟨hj, hlt⟩
    · exact hk.below j hf
    · exact Nat.lt_of_not_le fun hle => (hrun j hj hlt).2 ((hk.untouched j).2 hle)

include hl hr in
/-- The blocks of an outstanding run are in no other one. -/
theorem Lent.covers_erase (j : Nat) :
    Run.Covers ((outstanding ds).erase r) j ↔
      Run.Covers (outstanding ds) j ∧ ¬ (r.start ≤ j ∧ j < r.stop) := by
  have hperm := List.perm_cons_erase hr
  have happart := (hperm.pairwise_iff fun hab j hj => hab j hj.symm).1 hl.apart
  constructor
  · rintro ⟨s, hs, hj⟩
    exact ⟨⟨s, List.mem_of_mem_erase hs, hj⟩,
      fun hrj => (List.pairwise_cons.1 happart).1 s hs j ⟨hrj, hj⟩⟩
  · rintro ⟨⟨s, hs, hj⟩, hrj⟩
    refine ⟨s, (List.mem_erase_of_ne ?_).2 hs, hj⟩
    rintro rfl
    exact hrj hj

include hl hr in
theorem Lent.released : Lent (released r :: ds) := by
  have hcovers := hl.covers_erase hr
  refine ⟨fun s hs => hl.positive s (List.mem_of_mem_erase hs),
    hl.apart.sublist List.erase_sublist, fun j hj => ?_, fun j hj => ?_, fun j => ?_⟩
  · obtain ⟨hj, hrj⟩ := (hcovers j).1 hj
    obtain ⟨hs, hu, hb⟩ := hl.run j hj
    rw [spare_released, untouched_released, bumped_mem_released]
    exact ⟨fun h => h.elim hs hrj, hu, hb⟩
  · rw [bumped_mem_released] at hj
    rw [spare_released]
    exact fun h => h.elim (hl.single j hj) fun hrj => (hl.run j ⟨r, hr, hrj⟩).2.2 hj
  · rw [untouched_released, spare_released, bumped_mem_released]
    by_cases hrj : r.start ≤ j ∧ j < r.stop
    · exact Or.inr (Or.inl (Or.inr hrj))
    · rcases hl.whole j with hu | hs | hb | hc
      · exact Or.inl hu
      · exact Or.inr (Or.inl (Or.inl hs))
      · exact Or.inr (Or.inr (Or.inl hb))
      · exact Or.inr (Or.inr (Or.inr ((hcovers j).2 ⟨hc, hrj⟩)))

end Released

end Deal

namespace Dealt

open Deal (Spare Untouched outstanding)

variable {limit i n : Nat} {ds : List Deal} {p p' : Pages}

/-- Every deal keeps the books of the pages and of the lent blocks. -/
theorem kept (hd : Dealt limit ds p) : Deal.Kept limit ds p ∧ Deal.Lent ds := by
  induction hd with
  | nothing => exact ⟨Deal.kept_nothing limit, Deal.lent_nothing⟩
  | bump _ hi ih =>
      have ht : Deal.Taken _ _ _ 1 := Or.inr (Pages.bump_eq_some hi)
      refine ⟨ih.1.carved (fun j => ?_) (fun j => id) ht, ih.2.bumped ih.1 ht⟩
      simp only [Deal.Carves]
      omega
  | carve _ hn hi ih =>
      have ht := Pages.carve_cases ih.1.tidy hi
      exact ⟨ih.1.carved (fun j => Iff.rfl) (fun j => id) ht, ih.2.carved ih.1 hn ht⟩
  | release _ hr ih => exact ⟨ih.1.released ih.2 hr, ih.2.released hr⟩

theorem released_le_next
    {r : Run}
    (hk : Deal.Kept limit ds p)
    (hr : r ∈ p.released) :
    r.stop ≤ p.next := by
  have hpos := hk.tidy.positive r hr
  have hlast := hk.below (r.stop - 1) ⟨r, hr, by rw [Run.stop]; omega, by rw [Run.stop]; omega⟩
  rw [Run.stop] at *
  omega

open Classical in
theorem releasedBlocks_eq_card (hk : Deal.Kept limit ds p) :
    p.releasedBlocks = ((Finset.range limit).filter (Spare ds)).card := by
  have hlt : ∀ j, p.Free j → j < limit := fun j hj => Nat.lt_of_lt_of_le (hk.below j hj) hk.next_le
  rw [Pages.releasedBlocks_eq, ← hk.tidy.card_covers hlt]
  refine congrArg Finset.card ?_
  ext j
  rw [Finset.mem_filter, Finset.mem_filter]
  exact and_congr_right fun _ => hk.spare j

theorem card_untouched (hk : Deal.Kept limit ds p) :
    ((Finset.range limit).filter (Untouched ds)).card = p.limit - p.next := by
  have hico : (Finset.range limit).filter (Untouched ds) = Finset.Ico p.next limit := by
    ext j
    rw [Finset.mem_filter, Finset.mem_range, Finset.mem_Ico, hk.untouched, and_comm]
  rw [hico, Nat.card_Ico, hk.limit_eq]

/-- Pages lose no block: the released runs are tidy and hold the spare blocks, the other carved blocks
are single ones or in outstanding runs, a run is carved from blocks that nothing else holds, and
there is none only if neither spare nor untouched blocks make one. -/
theorem loses_no_block (hd : Dealt limit ds p) :
    Run.Tidy p.released ∧
      (∀ r ∈ p.released, r.stop ≤ p.next) ∧
      p.next ≤ limit ∧
      (∀ j, p.Free j ↔ Spare ds j) ∧
      p.releasedBlocks = ((Finset.range limit).filter (Spare ds)).card ∧
      (∀ j, j < p.next ↔
        Spare ds j ∨ .bumped j ∈ ds ∨ Run.Covers (outstanding ds) j) ∧
      (∀ {n i : Nat} {p' : Pages}, 0 < n → p.carve n = some (i, p') →
        i + n ≤ limit ∧
          ∀ j, i ≤ j → j < i + n → ¬ Run.Covers (outstanding ds) j ∧ .bumped j ∉ ds) ∧
      ∀ {n : Nat}, 0 < n → (p.carve n = none ↔
        (¬ ∃ i, ∀ j, i ≤ j → j < i + n → Spare ds j) ∧
          ((Finset.range limit).filter (Untouched ds)).card < n) := by
  obtain ⟨hk, hl⟩ := hd.kept
  refine ⟨hk.tidy, fun r => released_le_next hk, hk.next_le, hk.spare, releasedBlocks_eq_card hk,
    fun j => ?_, fun hn hi => ?_, fun hn => ?_⟩
  · have huntouched := hk.untouched j
    rcases hl.whole j with hu | hheld
    · refine iff_of_false (Nat.not_lt.2 (huntouched.1 hu)) ?_
      rintro (hs | hb | hc)
      · exact absurd (hk.below j ((hk.spare j).2 hs)) (Nat.not_lt.2 (huntouched.1 hu))
      · exact hu _ hb rfl
      · exact (hl.run j hc).2.1 hu
    · refine iff_of_true (Nat.lt_of_not_le fun hle => ?_) hheld
      have hu := huntouched.2 hle
      rcases hheld with hs | hb | hc
      · exact absurd (hk.below j ((hk.spare j).2 hs)) (Nat.not_lt.2 hle)
      · exact hu _ hb rfl
      · exact (hl.run j hc).2.1 hu
  · have ht := Pages.carve_cases hk.tidy hi
    exact ⟨hk.taken_le hn ht, fun j hj hlt => (hk.not_lent hl ht ⟨hj, hlt⟩).symm⟩
  · rw [Pages.carve_eq_none hk.tidy hn, card_untouched hk]
    simp only [hk.spare]

/-- Three runs and a block are carved, and the runs are released, the one in the middle last. -/
def middleLast : List Deal :=
  [.released ⟨2, 3⟩, .released ⟨5, 1⟩, .released ⟨0, 2⟩, .bumped 6, .carved ⟨5, 1⟩,
    .carved ⟨2, 3⟩, .carved ⟨0, 2⟩]

/-- The three runs are one again. -/
theorem loses_no_block_coalesced :
    Dealt 16 middleLast ⟨7, 16, [⟨0, 6⟩]⟩ ∧
      Run.Tidy [⟨0, 6⟩] ∧
      (∀ j, Pages.Free ⟨7, 16, [⟨0, 6⟩]⟩ j ↔ Spare middleLast j) ∧
      Pages.releasedBlocks ⟨7, 16, [⟨0, 6⟩]⟩ = 6 ∧
      Pages.carve ⟨7, 16, [⟨0, 6⟩]⟩ 9 = some (7, ⟨16, 16, [⟨0, 6⟩]⟩) ∧
      7 + 9 ≤ 16 ∧
      Pages.carve ⟨7, 16, [⟨0, 6⟩]⟩ 11 = none := by
  have hlent :
      Dealt 16 [.bumped 6, .carved ⟨5, 1⟩, .carved ⟨2, 3⟩, .carved ⟨0, 2⟩] ⟨7, 16, []⟩ :=
    (((nothing.carve (n := 2) (by decide) rfl).carve (n := 3) (by decide) rfl).carve (n := 1)
      (by decide) rfl).bump rfl
  have hd : Dealt 16 middleLast ⟨7, 16, [⟨0, 6⟩]⟩ :=
    ((hlent.release (r := ⟨0, 2⟩) (by decide)).release (r := ⟨5, 1⟩) (by decide)).release
      (r := ⟨2, 3⟩) (by decide)
  obtain ⟨htidy, -, -, hspare, hcount, -, hcarve, -⟩ := loses_no_block hd
  have hnine : Pages.carve ⟨7, 16, [⟨0, 6⟩]⟩ 9 = some (7, ⟨16, 16, [⟨0, 6⟩]⟩) := rfl
  exact ⟨hd, htidy, hspare, hcount.trans (by decide), hnine, (hcarve (by decide) hnine).1, rfl⟩

end Dealt

end EagerHeap
