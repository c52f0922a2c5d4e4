import EagerHeap.Arena.Pages
import Mathlib.Data.List.TakeWhile
import Mathlib.Tactic.Tauto
/-!
# Released runs

The released runs of an arena stay tidy: none is empty, they ascend, and no two of them touch. This
module says which blocks the released runs cover after a run was carved and after a run was
released.

Main results: `Pages.carve_cases` and `Pages.covers_release`, with `Pages.tidy_carve` and
`Pages.tidy_release` for the invariant.
-/

namespace EagerHeap

namespace Run

/-- A block belongs to one of the runs. -/
def Covers (l : List Run) (j : Nat) : Prop :=
  ∃ r ∈ l, r.start ≤ j ∧ j < r.stop

/-- The runs ascend, none of them is empty, and no two of them touch. -/
structure Tidy (l : List Run) : Prop where
  apart : l.Pairwise fun r s => r.stop < s.start
  positive : ∀ r ∈ l, 0 < r.length

theorem covers_nil (j : Nat) : ¬ Covers [] j := by
  rintro ⟨r, hr, -⟩
  cases hr

theorem covers_cons
    {r : Run} {l : List Run} {j : Nat} :
    Covers (r :: l) j ↔ (r.start ≤ j ∧ j < r.stop) ∨ Covers l j := by
  constructor
  · rintro ⟨s, hs, hj⟩
    rcases List.mem_cons.1 hs with rfl | hs
    · exact Or.inl hj
    · exact Or.inr ⟨s, hs, hj⟩
  · rintro (hj | ⟨s, hs, hj⟩)
    · exact ⟨r, List.mem_cons_self .., hj⟩
    · exact ⟨s, List.mem_cons_of_mem _ hs, hj⟩

theorem covers_append
    {l m : List Run} {j : Nat} :
    Covers (l ++ m) j ↔ Covers l j ∨ Covers m j := by
  constructor
  · rintro ⟨s, hs, hj⟩
    rcases List.mem_append.1 hs with hs | hs
    · exact Or.inl ⟨s, hs, hj⟩
    · exact Or.inr ⟨s, hs, hj⟩
  · rintro (⟨s, hs, hj⟩ | ⟨s, hs, hj⟩)
    · exact ⟨s, List.mem_append_left _ hs, hj⟩
    · exact ⟨s, List.mem_append_right _ hs, hj⟩

theorem tidy_nil : Tidy [] :=
  ⟨List.Pairwise.nil, fun _ h => by cases h⟩

theorem tidy_cons
    {r : Run} {l : List Run} :
    Tidy (r :: l) ↔ (∀ s ∈ l, r.stop < s.start) ∧ 0 < r.length ∧ Tidy l := by
  constructor
  · rintro ⟨hapart, hpos⟩
    obtain ⟨hr, hl⟩ := List.pairwise_cons.1 hapart
    exact ⟨hr, hpos r (List.mem_cons_self ..), hl, fun s hs => hpos s (List.mem_cons_of_mem _ hs)⟩
  · rintro ⟨hr, hpos, hl⟩
    refine ⟨List.pairwise_cons.2 ⟨hr, hl.apart⟩, fun s hs => ?_⟩
    rcases List.mem_cons.1 hs with rfl | hs
    · exact hpos
    · exact hl.positive s hs

/-! ### Carving -/

/-- The first fit is covered, and exactly its blocks are not covered any more. The runs that are
left start no earlier than those that were there. -/
theorem takeFirstFit_eq_some
    {n start : Nat} {l rest : List Run}
    (hl : Tidy l)
    (h : takeFirstFit n l = some (start, rest)) :
    Tidy rest ∧
      (∀ s ∈ rest, ∃ r ∈ l, r.start ≤ s.start) ∧
      (∀ j, start ≤ j → j < start + n → Covers l j) ∧
      ∀ j, Covers rest j ↔ Covers l j ∧ ¬ (start ≤ j ∧ j < start + n) := by
  induction l generalizing start rest with
  | nil => cases h
  | cons r l ih =>
      obtain ⟨hr, hpos, hl'⟩ := tidy_cons.1 hl
      have hlater : ∀ j, Covers l j → r.stop < j := by
        rintro j ⟨s, hs, hj, -⟩
        exact Nat.lt_of_lt_of_le (hr s hs) hj
      simp only [takeFirstFit] at h
      split at h
      · next hfit =>
          cases h
          refine ⟨?_, ?_, ?_, ?_⟩
          · split
            · exact hl'
            · refine tidy_cons.2 ⟨fun s hs => ?_, ?_, hl'⟩
              · have := hr s hs
                simp only [stop, drop] at this ⊢
                omega
              · simp only [drop]
                omega
          · intro s hs
            split at hs
            · exact ⟨s, List.mem_cons_of_mem _ hs, Nat.le_refl _⟩
            · rcases List.mem_cons.1 hs with rfl | hs
              · exact ⟨r, List.mem_cons_self .., Nat.le_add_right ..⟩
              · exact ⟨s, List.mem_cons_of_mem _ hs, Nat.le_refl _⟩
          · intro j hj hj'
            refine covers_cons.2 (Or.inl ⟨hj, ?_⟩)
            simp only [stop]
            omega
          · intro j
            have hj := hlater j
            rw [covers_cons]
            split
            · constructor
              · intro hc
                have := hj hc
                simp only [stop] at this
                exact ⟨Or.inr hc, by omega⟩
              · rintro ⟨hc | hc, hout⟩
                · simp only [stop] at hc
                  omega
                · exact hc
            · rw [covers_cons]
              simp only [stop, drop] at hj ⊢
              constructor
              · rintro (hc | hc)
                · exact ⟨Or.inl (by omega), by omega⟩
                · have := hj hc
                  exact ⟨Or.inr hc, by omega⟩
              · rintro ⟨hc | hc, hout⟩
                · exact Or.inl (by omega)
                · exact Or.inr hc
      · obtain ⟨⟨start', rest'⟩, htake, heq⟩ := Option.map_eq_some_iff.1 h
        cases heq
        obtain ⟨htidy, hstarts, hin, hcov⟩ := ih hl' htake
        have hbeyond : ∀ j, start' ≤ j → j < start' + n → r.stop < j :=
          fun j hj hj' => hlater j (hin j hj hj')
        refine ⟨?_, ?_, ?_, ?_⟩
        · refine tidy_cons.2 ⟨fun s hs => ?_, hpos, htidy⟩
          obtain ⟨q, hq, hle⟩ := hstarts s hs
          exact Nat.lt_of_lt_of_le (hr q hq) hle
        · intro s hs
          rcases List.mem_cons.1 hs with rfl | hs
          · exact ⟨s, List.mem_cons_self .., Nat.le_refl _⟩
          · obtain ⟨q, hq, hle⟩ := hstarts s hs
            exact ⟨q, List.mem_cons_of_mem _ hq, hle⟩
        · exact fun j hj hj' => covers_cons.2 (Or.inr (hin j hj hj'))
        · intro j
          rw [covers_cons, covers_cons, hcov]
          constructor
          · rintro (hc | ⟨hc, hout⟩)
            · refine ⟨Or.inl hc, fun hin' => ?_⟩
              have := hbeyond j hin'.1 hin'.2
              omega
            · exact ⟨Or.inr hc, hout⟩
          · rintro ⟨hc | hc, hout⟩
            · exact Or.inl hc
            · exact Or.inr ⟨hc, hout⟩

/-! ### Releasing -/

theorem tidy_joinFront
    {r : Run} {l : List Run}
    (hl : Tidy l)
    (hpos : 0 < r.length)
    (hbefore : ∀ s ∈ l, r.stop ≤ s.start) :
    Tidy (r.joinFront l) := by
  cases l with
  | nil => exact tidy_cons.2 ⟨by simp, hpos, tidy_nil⟩
  | cons s rest =>
      obtain ⟨hs, hspos, hrest⟩ := tidy_cons.1 hl
      have hle := hbefore s (List.mem_cons_self ..)
      simp only [joinFront]
      split
      · refine tidy_cons.2 ⟨fun q hq => ?_, Nat.add_pos_left hpos s.length, hrest⟩
        have hlt := hs q hq
        simp only [stop] at *
        omega
      · next hne =>
          refine tidy_cons.2 ⟨fun q hq => ?_, hpos, hl⟩
          rcases List.mem_cons.1 hq with rfl | hq
          · omega
          · have hlt := hs q hq
            simp only [stop] at *
            omega

theorem covers_joinFront
    (r : Run) (l : List Run) (j : Nat) :
    Covers (r.joinFront l) j ↔ (r.start ≤ j ∧ j < r.stop) ∨ Covers l j := by
  cases l with
  | nil => exact covers_cons
  | cons s rest =>
      simp only [joinFront]
      split
      · rw [covers_cons, covers_cons]
        simp only [stop] at *
        constructor
        · rintro (hj | hj)
          · omega
          · exact Or.inr (Or.inr hj)
        · rintro (hj | hj | hj)
          · exact Or.inl (by omega)
          · exact Or.inl (by omega)
          · exact Or.inr hj
      · exact covers_cons

theorem start_le_of_mem_joinFront
    {r s : Run} {l : List Run}
    (hbefore : ∀ q ∈ l, r.stop ≤ q.start)
    (hs : s ∈ r.joinFront l) :
    r.start ≤ s.start := by
  have hle : ∀ q ∈ l, r.start ≤ q.start :=
    fun q hq => Nat.le_trans (Nat.le_add_right ..) (hbefore q hq)
  cases l with
  | nil =>
      rcases List.mem_cons.1 hs with rfl | hs
      · exact Nat.le_refl _
      · cases hs
  | cons q rest =>
      simp only [joinFront] at hs
      split at hs
      · rcases List.mem_cons.1 hs with rfl | hs
        · exact Nat.le_refl _
        · exact hle s (List.mem_cons_of_mem _ hs)
      · rcases List.mem_cons.1 hs with rfl | hs
        · exact Nat.le_refl _
        · exact hle s hs

theorem tidy_joinLast
    {earlier later : List Run}
    (he : Tidy earlier)
    (hl : Tidy later)
    (hbefore : ∀ r ∈ earlier, ∀ s ∈ later, r.stop ≤ s.start) :
    Tidy (joinLast earlier later) ∧
      ∀ s ∈ joinLast earlier later, (∃ r ∈ earlier, r.start ≤ s.start) ∨ s ∈ later := by
  induction earlier with
  | nil => exact ⟨hl, fun s hs => Or.inr hs⟩
  | cons r rest ih =>
      obtain ⟨hr, hpos, hrest⟩ := tidy_cons.1 he
      cases rest with
      | nil =>
          refine ⟨tidy_joinFront hl hpos (hbefore r (List.mem_cons_self ..)), fun s hs => ?_⟩
          exact Or.inl ⟨r, List.mem_cons_self ..,
            start_le_of_mem_joinFront (hbefore r (List.mem_cons_self ..)) hs⟩
      | cons q rest =>
          obtain ⟨htidy, hstarts⟩ := ih hrest fun p hp => hbefore p (List.mem_cons_of_mem _ hp)
          refine ⟨tidy_cons.2 ⟨fun s hs => ?_, hpos, htidy⟩, fun s hs => ?_⟩
          · rcases hstarts s hs with ⟨p, hp, hle⟩ | hs
            · exact Nat.lt_of_lt_of_le (hr p hp) hle
            · have hq := hr q (List.mem_cons_self ..)
              have hqs := hbefore q (by simp) s hs
              simp only [stop] at *
              omega
          · rcases List.mem_cons.1 hs with rfl | hs
            · exact Or.inl ⟨s, List.mem_cons_self .., Nat.le_refl _⟩
            · rcases hstarts s hs with ⟨p, hp, hle⟩ | hs
              · exact Or.inl ⟨p, List.mem_cons_of_mem _ hp, hle⟩
              · exact Or.inr hs

theorem covers_joinLast
    (earlier later : List Run) (j : Nat) :
    Covers (joinLast earlier later) j ↔ Covers earlier j ∨ Covers later j := by
  induction earlier with
  | nil =>
      simp only [joinLast]
      exact ⟨Or.inr, fun h => h.resolve_left (covers_nil j)⟩
  | cons r rest ih =>
      cases rest with
      | nil =>
          rw [joinLast, covers_joinFront, covers_cons]
          constructor
          · rintro (h | h)
            · exact Or.inl (Or.inl h)
            · exact Or.inr h
          · rintro ((h | h) | h)
            · exact Or.inl h
            · exact absurd h (covers_nil j)
            · exact Or.inr h
      | cons q rest =>
          rw [joinLast, covers_cons, ih, covers_cons (r := r), or_assoc]

end Run

namespace Pages

/-- A block that belongs to a released run. -/
def Free (p : Pages) (j : Nat) : Prop := Run.Covers p.released j

theorem bump_eq_some
    {p p' : Pages} {n start : Nat}
    (h : p.bump n = some (start, p')) :
    start = p.next ∧ n ≤ p.limit - p.next ∧ p' = { p with next := p.next + n } := by
  unfold bump at h
  split at h
  · cases h
  · cases h
    exact ⟨rfl, by omega, rfl⟩

/-- A run is carved out of the released ones, or else from the end of the carved part. -/
theorem carve_cases
    {p p' : Pages} {n start : Nat}
    (ht : Run.Tidy p.released)
    (h : p.carve n = some (start, p')) :
    (p'.next = p.next ∧ p'.limit = p.limit ∧ Run.Tidy p'.released ∧
        (∀ j, start ≤ j → j < start + n → p.Free j) ∧
        ∀ j, p'.Free j ↔ p.Free j ∧ ¬ (start ≤ j ∧ j < start + n)) ∨
      (start = p.next ∧ n ≤ p.limit - p.next ∧ p' = { p with next := p.next + n }) := by
  unfold carve at h
  split at h
  · next start' released htake =>
      cases h
      obtain ⟨htidy, -, hin, hcov⟩ := Run.takeFirstFit_eq_some ht htake
      exact Or.inl ⟨rfl, rfl, htidy, hin, hcov⟩
  · exact Or.inr (bump_eq_some h)

section Release

variable {p : Pages} {r : Run}

/-- The released runs in front of a run that covers none of their blocks end before it, and the
others start after it. -/
theorem release_split
    (ht : Run.Tidy p.released)
    (hpos : 0 < r.length)
    (hout : ∀ j, r.start ≤ j → j < r.stop → ¬ p.Free j) :
    (∀ s ∈ p.released.takeWhile (·.start < r.start), s.stop ≤ r.start) ∧
      ∀ s ∈ p.released.dropWhile (·.start < r.start), r.stop ≤ s.start := by
  constructor
  · intro s hs
    have hlt : s.start < r.start := by simpa using List.mem_takeWhile_imp hs
    refine Nat.le_of_not_lt fun hover => ?_
    have hmem : s ∈ p.released := (List.takeWhile_prefix _).subset hs
    have hself : r.start < r.stop := Nat.lt_add_of_pos_right hpos
    exact hout r.start (Nat.le_refl _) hself ⟨s, hmem, Nat.le_of_lt hlt, hover⟩
  · intro s hs
    have hmem : s ∈ p.released := (List.dropWhile_suffix _).subset hs
    have hle : r.start ≤ s.start := by
      have hdrop := ht.apart.sublist (List.dropWhile_sublist (·.start < r.start))
      cases hl : p.released.dropWhile (·.start < r.start) with
      | nil =>
          rw [hl] at hs
          cases hs
      | cons q rest =>
          have hq : r.start ≤ q.start := by
            have hhead := List.head?_dropWhile_not (fun s : Run => s.start < r.start) p.released
            simpa [hl] using hhead
          rw [hl] at hs hdrop
          rcases List.mem_cons.1 hs with rfl | hs
          · exact hq
          · have := (List.pairwise_cons.1 hdrop).1 s hs
            simp only [Run.stop] at this
            omega
    refine Nat.le_of_not_lt fun hover => ?_
    have hself : s.start < s.stop := Nat.lt_add_of_pos_right (ht.positive s hmem)
    exact hout s.start hle hover ⟨s, hmem, Nat.le_refl _, hself⟩

/-- Released runs stay tidy when a run of other blocks is released. -/
theorem tidy_release
    (ht : Run.Tidy p.released)
    (hpos : 0 < r.length)
    (hout : ∀ j, r.start ≤ j → j < r.stop → ¬ p.Free j) :
    Run.Tidy (p.release r).released := by
  obtain ⟨hbefore, hafter⟩ := release_split ht hpos hout
  have htake : Run.Tidy (p.released.takeWhile (·.start < r.start)) :=
    ⟨ht.apart.sublist (List.takeWhile_sublist _),
      fun s hs => ht.positive s ((List.takeWhile_prefix _).subset hs)⟩
  have hdrop : Run.Tidy (p.released.dropWhile (·.start < r.start)) :=
    ⟨ht.apart.sublist (List.dropWhile_sublist _),
      fun s hs => ht.positive s ((List.dropWhile_suffix _).subset hs)⟩
  refine (Run.tidy_joinLast htake (Run.tidy_joinFront hdrop hpos hafter) fun s hs q hq => ?_).1
  have hs' := hbefore s hs
  have hq' := Run.start_le_of_mem_joinFront hafter hq
  omega

/-- Releasing a run makes exactly its blocks free besides those that were. -/
theorem free_release
    (p : Pages) (r : Run) (j : Nat) :
    (p.release r).Free j ↔ p.Free j ∨ (r.start ≤ j ∧ j < r.stop) := by
  have hsplit : p.Free j ↔
      Run.Covers (p.released.takeWhile (·.start < r.start)) j ∨
        Run.Covers (p.released.dropWhile (·.start < r.start)) j := by
    rw [← Run.covers_append, List.takeWhile_append_dropWhile]
    rfl
  rw [hsplit]
  unfold Free release
  rw [Run.covers_joinLast, Run.covers_joinFront]
  tauto

end Release

end Pages

end EagerHeap
