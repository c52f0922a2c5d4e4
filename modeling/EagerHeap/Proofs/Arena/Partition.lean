import EagerHeap.Heap.Basic
import EagerHeap.Proofs.Arena.Layout
import Mathlib.Algebra.BigOperators.Ring.Finset
import Mathlib.Data.Finset.Card
import Mathlib.Order.Interval.Finset.Nat
/-!
# The uses of blocks

Every carved block is used in exactly one way: for small cells of one span, for one live run, or for
one released run. Counted over all carved blocks this is the equation that an occupancy report of the
heap satisfies.

Main results: `Layout.divided` and `Heap.census_blocksCarved`.
-/

namespace EagerHeap

/-- What a carved block is used for. -/
inductive BlockUse where
  /-- Small cells of a span. -/
  | cells (s : Span)
  /-- The live run of `n` blocks that block `i` heads. -/
  | live (i n : Nat)
  /-- A released run. -/
  | released (r : Run)

namespace Run

variable {l : List Run} {r s : Run} {j : Nat}

/-- Tidy runs have no block in common. -/
theorem Tidy.unique
    (hl : Tidy l)
    (hr : r ∈ l)
    (hs : s ∈ l)
    (hrj : r.start ≤ j ∧ j < r.stop)
    (hsj : s.start ≤ j ∧ j < s.stop) :
    r = s := by
  induction l with
  | nil => cases hr
  | cons t l ih =>
      obtain ⟨hbefore, -, hl⟩ := tidy_cons.1 hl
      rcases List.mem_cons.1 hr with heq | hr
      · rcases List.mem_cons.1 hs with heq' | hs
        · exact heq.trans heq'.symm
        · have := hbefore s hs
          rw [← heq] at this
          omega
      · rcases List.mem_cons.1 hs with heq | hs
        · have := hbefore r hr
          rw [← heq] at this
          omega
        · exact ih hl hr hs

open Classical in
/-- Tidy runs cover as many blocks as their lengths say. -/
theorem Tidy.card_covers
    {n : Nat}
    (hl : Tidy l)
    (hn : ∀ j, Covers l j → j < n) :
    ((Finset.range n).filter (Covers l)).card = (l.map Run.length).sum := by
  induction l with
  | nil => simp [covers_nil]
  | cons r l ih =>
      obtain ⟨hbefore, -, hl⟩ := tidy_cons.1 hl
      have hsplit : (Finset.range n).filter (Covers (r :: l)) =
          Finset.Ico r.start r.stop ∪ (Finset.range n).filter (Covers l) := by
        ext j
        simp only [Finset.mem_filter, Finset.mem_range, Finset.mem_union, Finset.mem_Ico,
          covers_cons]
        constructor
        · rintro ⟨hj, hc | hc⟩
          · exact Or.inl hc
          · exact Or.inr ⟨hj, hc⟩
        · rintro (hc | ⟨hj, hc⟩)
          · exact ⟨hn j (covers_cons.2 (Or.inl hc)), Or.inl hc⟩
          · exact ⟨hj, Or.inr hc⟩
      have hdisjoint : Disjoint (Finset.Ico r.start r.stop)
          ((Finset.range n).filter (Covers l)) := by
        refine Finset.disjoint_left.2 fun j hj hc => ?_
        obtain ⟨s, hs, hsj, -⟩ := (Finset.mem_filter.1 hc).2
        have := hbefore s hs
        have := (Finset.mem_Ico.1 hj).2
        omega
      rw [hsplit, Finset.card_union_of_disjoint hdisjoint, Nat.card_Ico,
        ih hl fun j hc => hn j (covers_cons.2 (Or.inr hc)), List.map_cons, List.sum_cons, stop,
        Nat.add_sub_cancel_left]

end Run

theorem Pages.releasedBlocks_eq (p : Pages) :
    p.releasedBlocks = (p.released.map Run.length).sum := by
  have hfold : ∀ (l : List Run) (k : Nat),
      l.foldl (fun n r => n + r.length) k = k + (l.map Run.length).sum := by
    intro l
    induction l with
    | nil => exact fun _ => rfl
    | cons r l ih =>
        intro k
        rw [List.foldl_cons, ih, List.map_cons, List.sum_cons, Nat.add_assoc]
  exact (hfold p.released 0).trans (Nat.zero_add _)

namespace Block

/-- One for a block of small cells, and zero for other blocks. -/
def smallWeight (b : Block) : Nat := if b.isLarge then 0 else 1

end Block

namespace Arena

variable {a : Arena} {i j n : Nat} {u v : BlockUse}

/-- The block is used in a way, and its header says so: the head of a live run knows the length of
the run, and all other blocks of runs have run length zero. -/
def Uses (a : Arena) (j : Nat) : BlockUse → Prop
  | .cells s => a.HasSpan j s
  | .live i n => 0 < n ∧ i ≤ j ∧ j < i + n ∧ a.HasRun i n ∧ (j ≠ i → a.HasRun j 0)
  | .released r => r ∈ a.pages.released ∧ r.start ≤ j ∧ j < r.stop ∧ a.HasRun j 0

namespace Layout

theorem lt_next_of_hasRun (hl : a.Layout) (hr : a.HasRun j n) : j < a.pages.next := by
  obtain ⟨sh, hout⟩ := hr
  exact hl.carved ▸ lt_size_of_outline? hout

theorem exists_use (hl : a.Layout) (hj : j < a.pages.next) : ∃ u, a.Uses j u := by
  rw [← hl.carved] at hj
  have hb := Array.getElem?_eq_getElem hj
  cases hk : a.blocks[j] with
  | small s cells q =>
      rw [hk] at hb
      exact ⟨.cells s, hl.hasSpan_of_getElem? hb⟩
  | large hd n sh =>
      rw [hk] at hb
      have hr := hasRun_of_getElem? hb
      rcases Nat.eq_zero_or_pos n with rfl | hn
      · rcases hl.owned j hr with ⟨r, hr', hrj⟩ | ⟨i, n, hrun, hlt, hin⟩
        · exact ⟨.released r, hr', hrj.1, hrj.2, hr⟩
        · exact ⟨.live i n, by omega, hlt.le, hin, hrun, fun _ => hr⟩
      · exact ⟨.live j n, hn, Nat.le_refl j, by omega, hr, fun h => absurd rfl h⟩

theorem lt_next_of_uses (hl : a.Layout) (hu : a.Uses j u) : j < a.pages.next := by
  cases u with
  | cells s => exact hl.carved ▸ lt_size_of_outline? hu
  | live i n =>
      obtain ⟨-, -, -, hrun, htail⟩ := hu
      by_cases hji : j = i
      · exact hl.lt_next_of_hasRun (hji ▸ hrun)
      · exact hl.lt_next_of_hasRun (htail hji)
  | released r => exact hl.lt_next_of_hasRun hu.2.2.2

/-- Two live runs that have a block in common are the same run. -/
theorem live_unique
    {i' n' : Nat}
    (hl : a.Layout)
    (hu : a.Uses j (.live i n))
    (hv : a.Uses j (.live i' n')) :
    i = i' := by
  obtain ⟨hn, hi, hin, hrun, -⟩ := hu
  obtain ⟨hn', hi', hin', hrun', -⟩ := hv
  rcases Nat.lt_trichotomy i i' with hlt | heq | hlt
  · have := hrun'.unique (hl.tail i n i' hrun hlt (by omega)).1
    omega
  · exact heq
  · have := hrun.unique (hl.tail i' n' i hrun' hlt (by omega)).1
    omega

/-- A block of a live run is not free. -/
theorem not_free_of_live (hl : a.Layout) (hu : a.Uses j (.live i n)) : ¬ a.pages.Free j := by
  obtain ⟨hn, hi, hin, hrun, -⟩ := hu
  rcases Nat.eq_or_lt_of_le hi with rfl | hlt
  · intro hfree
    have := hrun.unique (hl.spare i hfree)
    omega
  · exact (hl.tail i n j hrun hlt hin).2

/-- A block is not used in two ways. -/
theorem use_unique (hl : a.Layout) (hu : a.Uses j u) (hv : a.Uses j v) : u = v := by
  have hlive : ∀ {i n}, a.Uses j (.live i n) → ∃ k, a.HasRun j k := by
    rintro i n ⟨-, -, -, hrun, htail⟩
    by_cases hji : j = i
    · exact ⟨n, hji ▸ hrun⟩
    · exact ⟨0, htail hji⟩
  have hfree : ∀ {r}, a.Uses j (.released r) → a.pages.Free j :=
    fun {r} hr => ⟨r, hr.1, hr.2.1, hr.2.2.1⟩
  cases u with
  | cells s =>
      cases v with
      | cells t => rw [HasSpan.unique hu hv]
      | live i n =>
          obtain ⟨k, hk⟩ := hlive hv
          exact absurd hk (HasSpan.not_hasRun hu)
      | released r => exact absurd hv.2.2.2 (HasSpan.not_hasRun hu)
  | live i n =>
      cases v with
      | cells t =>
          obtain ⟨k, hk⟩ := hlive hu
          exact absurd hk (HasSpan.not_hasRun hv)
      | live i' n' =>
          obtain rfl := hl.live_unique hu hv
          rw [HasRun.unique hu.2.2.2.1 hv.2.2.2.1]
      | released r => exact absurd (hfree hv) (hl.not_free_of_live hu)
  | released r =>
      cases v with
      | cells t => exact absurd hu.2.2.2 (HasSpan.not_hasRun hv)
      | live i n => exact absurd (hfree hu) (hl.not_free_of_live hv)
      | released r' =>
          rw [hl.tidy.unique hu.1 hv.1 ⟨hu.2.1, hu.2.2.1⟩ ⟨hv.2.1, hv.2.2.1⟩]

/-- Exactly the carved blocks are used, each of them in exactly one way. -/
theorem existsUnique_use (hl : a.Layout) (j : Nat) :
    (j < a.pages.next → ∃! u, a.Uses j u) ∧ ∀ u, a.Uses j u → j < a.pages.next := by
  refine ⟨fun hj => ?_, fun u hu => hl.lt_next_of_uses hu⟩
  obtain ⟨u, hu⟩ := hl.exists_use hj
  exact ⟨u, hu, fun v hv => hl.use_unique hv hu⟩

/-- Every header in use belongs to a cell that is found at its address. -/
theorem exists_cell
    {b k : Nat} {hd : Header}
    (hl : a.Layout)
    (hhd : a.header? b k = some hd)
    (hst : hd.state ≠ .free) :
    ∃ x c, a.cell? x = some c ∧ c.block = b ∧ c.index = k ∧ c.header = hd := by
  obtain ⟨bl, hb, hbk⟩ := Option.bind_eq_some_iff.1 hhd
  cases bl with
  | small s cells q =>
      have hk : k < Block.cellsPer s := by
        rw [← hl.full b s cells q hb]
        exact (Array.getElem?_eq_some_iff.1 hbk).1
      obtain ⟨hd', hhd', hcell⟩ := hl.cell?_small (hl.hasSpan_of_getElem? hb) hk
      rw [hhd] at hhd'
      obtain rfl := Option.some.inj hhd'
      exact ⟨_, _, hcell, rfl, rfl, rfl⟩
  | large hd' n sh =>
      obtain ⟨hd₀, hhd₀, hstate⟩ := hl.head b n (hasRun_of_getElem? hb)
      have hk : k = 0 := by
        by_contra hne
        rw [Block.header?, if_neg hne] at hbk
        cases hbk
      subst hk
      rw [hhd] at hhd₀
      obtain rfl := Option.some.inj hhd₀
      have hn : 0 < n := by
        refine Nat.pos_of_ne_zero fun hz => hst ?_
        rw [hstate, if_pos hz]
      have hout : a.outline? b = some (.large {} n sh) := by
        rw [outline?, hb]
        rfl
      obtain ⟨hd₁, hhd₁, -, hcell⟩ := hl.cell?_large hout hn
      rw [hhd] at hhd₁
      obtain rfl := Option.some.inj hhd₁
      exact ⟨_, _, hcell, rfl, rfl, rfl⟩

/-- Cells lie in the arena. -/
theorem stop_le (hl : a.Layout) {x : Nat} {c : Cell} (hx : a.cell? x = some c) :
    start ≤ x ∧ x + c.size ≤ a.stop := by
  refine ⟨start_le_of_contains (cell?_eq_some_iff.1 hx).1, (hl.stop_le_next hx).trans ?_⟩
  exact Nat.add_le_add_left (Nat.mul_le_mul_right _ hl.inside) _

end Layout

/-- The carved blocks are divided between small cells, live runs and released runs, and the cells in
use are found at addresses of the arena at which they have no byte in common. -/
structure Divided (a : Arena) : Prop where
  uses : ∀ j, (j < a.pages.next → ∃! u, a.Uses j u) ∧ ∀ u, a.Uses j u → j < a.pages.next
  found : ∀ b k hd, a.header? b k = some hd → hd.state ≠ .free →
    ∃ x c, a.cell? x = some c ∧ c.block = b ∧ c.index = k ∧ c.header = hd
  inside : ∀ x c, a.cell? x = some c → start ≤ x ∧ x + c.size ≤ a.stop
  apart : ∀ x y c d, a.cell? x = some c → a.cell? y = some d → x ≠ y →
    x + c.size ≤ y ∨ y + d.size ≤ x

namespace Layout

theorem divided (hl : a.Layout) : a.Divided where
  uses := hl.existsUnique_use
  found := fun _ _ _ => hl.exists_cell
  inside := fun _ _ => hl.stop_le
  apart := fun _ _ _ _ => hl.disjoint

/-! ### Counting blocks -/

theorem sum_blocks
    (hl : a.Layout)
    (f : Block → Nat) :
    (a.blocks.toList.map f).sum =
      ∑ j ∈ Finset.range a.pages.next, (a.blocks[j]?.map f).getD 0 := by
  have hlist : ∀ l : List Block,
      (l.map f).sum = ∑ j ∈ Finset.range l.length, (l[j]?.map f).getD 0 := by
    intro l
    induction l with
    | nil => simp
    | cons b l ih =>
        rw [List.length_cons, Finset.sum_range_succ', List.map_cons, List.sum_cons, ih]
        simp [Nat.add_comm]
  have harray := hlist a.blocks.toList
  simp only [Array.length_toList, Array.getElem?_toList, hl.carved] at harray
  exact harray

open Classical in
/-- The live runs have as many blocks as their heads say. -/
theorem card_live (hl : a.Layout) :
    ((Finset.range a.pages.next).filter fun j => ∃ i n, a.Uses j (.live i n)).card =
      (a.blocks.toList.map Block.run).sum := by
  have hrun : ∀ i n, a.HasRun i n → (a.blocks[i]?.map Block.run).getD 0 = n := by
    intro i n hr
    obtain ⟨hd, sh, hb⟩ := exists_getElem?_of_hasRun hr
    rw [hb]
    rfl
  have huse : ∀ i j, i ≤ j → j < i + (a.blocks[i]?.map Block.run).getD 0 →
      a.Uses j (.live i ((a.blocks[i]?.map Block.run).getD 0)) := by
    intro i j hij hj
    have hr : a.HasRun i ((a.blocks[i]?.map Block.run).getD 0) := by
      cases hb : a.blocks[i]? with
      | none =>
          rw [hb] at hj
          exact absurd hj (by simp; omega)
      | some b =>
          cases b with
          | small s cells q =>
              rw [hb] at hj
              exact absurd hj (by simp [Block.run]; omega)
          | large hd n sh => exact hasRun_of_getElem? hb
    refine ⟨by omega, hij, hj, hr, fun hne => ?_⟩
    exact (hl.tail i _ j hr (by omega) hj).1
  have hunion : ((Finset.range a.pages.next).filter fun j => ∃ i n, a.Uses j (.live i n)) =
      (Finset.range a.pages.next).biUnion fun i =>
        Finset.Ico i (i + (a.blocks[i]?.map Block.run).getD 0) := by
    ext j
    simp only [Finset.mem_filter, Finset.mem_range, Finset.mem_biUnion, Finset.mem_Ico]
    constructor
    · rintro ⟨-, i, n, hu⟩
      refine ⟨i, hl.lt_next_of_hasRun hu.2.2.2.1, hu.2.1, ?_⟩
      rw [hrun i n hu.2.2.2.1]
      exact hu.2.2.1
    · rintro ⟨i, -, hij, hj⟩
      exact ⟨hl.lt_next_of_uses (huse i j hij hj), i, _, huse i j hij hj⟩
  rw [hunion, Finset.card_biUnion, hl.sum_blocks]
  · exact Finset.sum_congr rfl fun i _ => by rw [Nat.card_Ico, Nat.add_sub_cancel_left]
  · intro i _ i' _ hne
    refine Finset.disjoint_left.2 fun j hj hj' => hne ?_
    obtain ⟨hij, hjn⟩ := Finset.mem_Ico.1 hj
    obtain ⟨hij', hjn'⟩ := Finset.mem_Ico.1 hj'
    exact hl.live_unique (huse i j hij hjn) (huse i' j hij' hjn')

open Classical in
theorem card_small (hl : a.Layout) :
    ((Finset.range a.pages.next).filter fun j => ∃ s, a.Uses j (.cells s)).card =
      (a.blocks.toList.map Block.smallWeight).sum := by
  rw [Finset.card_filter, hl.sum_blocks]
  refine Finset.sum_congr rfl fun j hj => ?_
  obtain ⟨b, hb⟩ : ∃ b, a.blocks[j]? = some b := by
    refine ⟨_, Array.getElem?_eq_getElem ?_⟩
    exact hl.carved ▸ Finset.mem_range.1 hj
  cases b with
  | small s cells q =>
      rw [hb, if_pos ⟨s, hl.hasSpan_of_getElem? hb⟩]
      rfl
  | large hd n sh =>
      rw [hb, if_neg ?_]
      · rfl
      · rintro ⟨s, hs⟩
        exact HasSpan.not_hasRun hs (hasRun_of_getElem? hb)

open Classical in
theorem card_released (hl : a.Layout) :
    ((Finset.range a.pages.next).filter fun j => ∃ r, a.Uses j (.released r)).card =
      a.pages.releasedBlocks := by
  rw [Pages.releasedBlocks_eq,
    ← hl.tidy.card_covers fun j hj => hl.lt_next_of_hasRun (hl.spare j hj)]
  refine congrArg Finset.card (Finset.filter_congr fun j _ => ?_)
  constructor
  · rintro ⟨r, hr, hle, hlt, -⟩
    exact ⟨r, hr, hle, hlt⟩
  · rintro ⟨r, hr, hle, hlt⟩
    exact ⟨r, hr, hle, hlt, hl.spare j ⟨r, hr, hle, hlt⟩⟩

open Classical in
/-- The carved blocks are the blocks of small cells, of live runs and of released runs. -/
theorem next_eq (hl : a.Layout) :
    a.pages.next = (a.blocks.toList.map Block.smallWeight).sum +
      (a.blocks.toList.map Block.run).sum + a.pages.releasedBlocks := by
  have huse : ∀ j ∈ Finset.range a.pages.next, 1 =
      (if ∃ s, a.Uses j (.cells s) then 1 else 0) +
        (if ∃ i n, a.Uses j (.live i n) then 1 else 0) +
        (if ∃ r, a.Uses j (.released r) then 1 else 0) := by
    intro j hj
    obtain ⟨u, hu⟩ := hl.exists_use (Finset.mem_range.1 hj)
    have hother : ∀ {v}, a.Uses j v → u = v := fun hv => hl.use_unique hu hv
    cases u with
    | cells s =>
        rw [if_pos ⟨s, hu⟩, if_neg, if_neg]
        · exact fun ⟨r, hv⟩ => BlockUse.noConfusion (hother hv)
        · exact fun ⟨i, n, hv⟩ => BlockUse.noConfusion (hother hv)
    | live i n =>
        rw [if_neg, if_pos ⟨i, n, hu⟩, if_neg]
        · exact fun ⟨r, hv⟩ => BlockUse.noConfusion (hother hv)
        · exact fun ⟨s, hv⟩ => BlockUse.noConfusion (hother hv)
    | released r =>
        rw [if_neg, if_neg, if_pos ⟨r, hu⟩]
        · exact fun ⟨i, n, hv⟩ => BlockUse.noConfusion (hother hv)
        · exact fun ⟨s, hv⟩ => BlockUse.noConfusion (hother hv)
  rw [← hl.card_small, ← hl.card_live, ← hl.card_released]
  simp only [Finset.card_filter]
  rw [← Finset.sum_add_distrib, ← Finset.sum_add_distrib, ← Finset.sum_congr rfl huse]
  simp

end Layout

end Arena

/-! ### Occupancy -/

namespace Census

/-- What counting blocks adds to a report. -/
theorem foldl_count
    (bs : List Block)
    (hlive : ∀ hd n sh, Block.large hd n sh ∈ bs → 0 < n → hd.state = .allocated)
    (t : Census) :
    (bs.foldl count t).blocksCarved = t.blocksCarved ∧
      (bs.foldl count t).freeLargeBlocks = t.freeLargeBlocks ∧
      (bs.foldl count t).smallBlocks = t.smallBlocks + (bs.map Block.smallWeight).sum ∧
      (bs.foldl count t).largeBytes = t.largeBytes + (bs.map Block.run).sum * blockSize := by
  induction bs generalizing t with
  | nil => simp
  | cons b bs ih =>
      obtain ⟨h₁, h₂, h₃, h₄⟩ := ih
        (fun hd n sh hb => hlive hd n sh (List.mem_cons_of_mem _ hb)) (t.count b)
      rw [List.foldl_cons, h₁, h₂, h₃, h₄]
      simp only [List.map_cons, List.sum_cons, Nat.add_mul, ← Nat.add_assoc]
      cases b with
      | small s cells q => simp [count, Block.smallWeight, Block.isLarge, Block.run]
      | large hd n sh =>
          rcases Nat.eq_zero_or_pos n with rfl | hn
          · simp [count, Block.smallWeight, Block.isLarge, Block.run]
          · have hal := hlive hd n sh (List.mem_cons_self ..) hn
            simp [count, Block.smallWeight, Block.isLarge, Block.run, hn, hal]

end Census

/-- An occupancy report accounts for every carved block. -/
theorem Heap.census_blocksCarved
    {h : Heap}
    (hl : h.arena.Layout) :
    h.census.blocksCarved =
      h.census.smallBlocks + h.census.largeBytes / blockSize + h.census.freeLargeBlocks := by
  have hlive : ∀ hd n sh, Block.large hd n sh ∈ h.arena.blocks.toList → 0 < n →
      hd.state = .allocated := by
    intro hd n sh hb hn
    obtain ⟨i, hi, hk⟩ := List.mem_iff_getElem.1 hb
    have hb' : h.arena.blocks[i]? = some (.large hd n sh) := by
      rw [← Array.getElem?_toList, List.getElem?_eq_getElem hi, hk]
    obtain ⟨hd', hhd, hst⟩ := hl.head i n (Arena.hasRun_of_getElem? hb')
    rw [Arena.header?, hb'] at hhd
    obtain rfl := Option.some.inj hhd
    rwa [if_neg (by omega)] at hst
  obtain ⟨h₁, h₂, h₃, h₄⟩ := Census.foldl_count h.arena.blocks.toList hlive
    { blocksCarved := h.arena.pages.next, freeLargeBlocks := h.arena.pages.releasedBlocks }
  simp only [Array.foldl_toList] at h₁ h₂ h₃ h₄
  rw [Heap.census, h₁, h₂, h₃, h₄]
  simp only [Nat.zero_add]
  rw [Nat.mul_div_cancel _ (by decide)]
  exact hl.next_eq

end EagerHeap
