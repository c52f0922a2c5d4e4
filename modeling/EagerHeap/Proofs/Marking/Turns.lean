import EagerHeap.Proofs.Heap.Births
import EagerHeap.Proofs.Marking.Operations
import Mathlib.Data.List.Nodup
/-!
# The turns of the marker

A turn of the marker gives one object its next color: gray when the object is shaded, black when it
is blackened. Each operation of the marker is followed by the list of its turns, in their order.

An address that has passed a color cannot fall behind it while a cycle runs, whatever is freed and
handed out there: free cells keep their colors, and new objects are black. A turn is made only where
its color was not passed before. So no turn is made twice, even if a list, the barrier buffer or a
root names an address whose object has been replaced.

Main results: `Tick.passed`, `Marker.turnsOnly_advance` and `turnsOnly_resurrectAll`.
-/

namespace EagerHeap

theorem Color.rank_le_black (c : Color) : c.rank ≤ Color.rank .black := by
  cases c <;> decide

/-- The marker gives the object at an address a color. -/
structure Turn where
  addr : Nat
  color : Color
deriving DecidableEq, Repr

/-- The number of objects that were blackened. -/
def blackTurns (L : List Turn) : Nat := L.countP (·.color = .black)

@[simp] theorem blackTurns_nil : blackTurns [] = 0 := rfl

@[simp] theorem blackTurns_append (L L' : List Turn) :
    blackTurns (L ++ L') = blackTurns L + blackTurns L' :=
  List.countP_append

/-- While a cycle runs the color of a cell never falls: it is handed out black. -/
theorem HeaderChange.rank_le_of_ne_idle
    {p : Phase} {l : Act} {y : Nat} {hd hd' : Header}
    (h : HeaderChange p l y hd hd')
    (hbegin : l ≠ .begin)
    (hidle : p ≠ .idle) :
    hd.color.rank ≤ hd'.color.rank := by
  cases h with
  | birth hne =>
      rw [Header.fresh, Phase.allocationColor_of_ne_idle hidle]
      exact hd.color.rank_le_black
  | paint hrank hkeep => exact hrank
  | begin => exact absurd rfl hbegin
  | _ => exact Nat.le_refl _

namespace Arena

/-- The block of an address was carved, and a cell at the address has the given color or a later
one. -/
structure Passed (a : Arena) (x : Nat) (col : Color) : Prop where
  carved : ∃ b, a.outline? ((x - start) / blockSize) = some b
  rank : ∀ c, a.cell? x = some c → col.rank ≤ c.header.color.rank

variable {a a' : Arena} {x : Nat} {c : Cell} {col : Color}

theorem carved_of_cell?
    (hx : a.cell? x = some c) :
    ∃ b, a.outline? ((x - start) / blockSize) = some b := by
  obtain ⟨-, b, hb, -⟩ := cell?_eq_some_iff.1 hx
  exact ⟨b.outline, by rw [outline?, hb]; rfl⟩

theorem passed_of_cell?
    (hx : a.cell? x = some c)
    (hcol : col.rank ≤ c.header.color.rank) :
    a.Passed x col := by
  refine ⟨carved_of_cell? hx, fun d hd => ?_⟩
  rw [hx] at hd
  obtain rfl := Option.some.inj hd
  exact hcol

/-- What an address has passed depends on the outlines of blocks and on the colors only. -/
theorem passed_congr
    (hout : SameOutline a a')
    (hcol : ∀ y, (a'.cell? y).map (·.header.color) = (a.cell? y).map (·.header.color)) :
    a'.Passed x col ↔ a.Passed x col := by
  have hone : ∀ b b' : Arena, SameOutline b b' →
      (∀ y, (b'.cell? y).map (·.header.color) = (b.cell? y).map (·.header.color)) →
      b.Passed x col → b'.Passed x col := by
    intro b b' hout hcol hp
    refine ⟨by simpa [hout.outline?] using hp.carved, fun c hc => ?_⟩
    have hmap := hcol x
    rw [hc] at hmap
    obtain ⟨d, hd, heq⟩ := Option.map_eq_some_iff.1 hmap.symm
    rw [show c.header.color = d.header.color from heq.symm]
    exact hp.rank d hd
  exact ⟨hone a' a hout.symm fun y => (hcol y).symm, hone a a' hout hcol⟩

end Arena

namespace Marker

/-- The turns of a list were made between two states, none of them twice, and none of a color that
its address had passed. -/
structure Turns (m : Marker) (L : List Turn) (m' : Marker) : Prop where
  nodup : L.Nodup
  fresh : ∀ t ∈ L, ∀ col, m.arena.Passed t.addr col → col.rank < t.color.rank
  passed : ∀ t ∈ L, m'.arena.Passed t.addr t.color
  keeps : ∀ x col, m.arena.Passed x col → m'.arena.Passed x col
  marked : m'.marked = m.marked + blackTurns L

/-- Moreover, colors were passed by these turns only. -/
structure TurnsOnly (m : Marker) (L : List Turn) (m' : Marker) : Prop extends Turns m L m' where
  only : ∀ x col, m'.arena.Passed x col → m.arena.Passed x col ∨ ⟨x, col⟩ ∈ L

variable {m m' m'' : Marker} {L L' : List Turn} {x : Nat} {c : Cell} {col : Color}

theorem Turns.refl
    (hkeeps : ∀ x col, m.arena.Passed x col → m'.arena.Passed x col)
    (hmarked : m'.marked = m.marked) :
    Turns m [] m' :=
  ⟨List.nodup_nil, nofun, nofun, hkeeps, hmarked⟩

theorem Turns.trans
    (h : Turns m L m')
    (h' : Turns m' L' m'') :
    Turns m (L ++ L') m'' := by
  refine ⟨List.nodup_append'.2 ⟨h.nodup, h'.nodup, fun t ht ht' => ?_⟩, fun t ht d hd => ?_,
    fun t ht => ?_, fun x d hd => h'.keeps x d (h.keeps x d hd), ?_⟩
  · exact Nat.lt_irrefl _ (h'.fresh t ht' _ (h.passed t ht))
  · rcases List.mem_append.1 ht with ht | ht
    · exact h.fresh t ht d hd
    · exact h'.fresh t ht d (h.keeps t.addr d hd)
  · rcases List.mem_append.1 ht with ht | ht
    · exact h'.keeps t.addr _ (h.passed t ht)
    · exact h'.passed t ht
  · rw [h'.marked, h.marked, blackTurns_append, Nat.add_assoc]

theorem TurnsOnly.refl
    (hkeeps : ∀ x col, m'.arena.Passed x col ↔ m.arena.Passed x col)
    (hmarked : m'.marked = m.marked) :
    TurnsOnly m [] m' :=
  ⟨.refl (fun x d => (hkeeps x d).2) hmarked, fun x d h => Or.inl ((hkeeps x d).1 h)⟩

theorem TurnsOnly.trans
    (h : TurnsOnly m L m')
    (h' : TurnsOnly m' L' m'') :
    TurnsOnly m (L ++ L') m'' := by
  refine ⟨h.toTurns.trans h'.toTurns, fun x col hp => ?_⟩
  rcases h'.only x col hp with hp | hmem
  · exact (h.only x col hp).imp_right (List.mem_append_left L')
  · exact Or.inr (List.mem_append_right L hmem)

/-- Giving an object its next color is one turn. -/
theorem turnsOnly_next
    (ho : m.arena.Object x c)
    (hnext : c.header.color.rank + 1 = col.rank)
    (harena : m'.arena = m.arena.modifyHeader c.block c.index (·.withColor col))
    (hmarked : m'.marked = m.marked + blackTurns [⟨x, col⟩]) :
    TurnsOnly m [⟨x, col⟩] m' := by
  have hcells := Arena.cell?_modifyHeader_of_cell ho.1 (·.withColor col)
  have hout := Arena.sameOutline_modifyHeader m.arena c.block c.index (·.withColor col)
  rw [← harena] at hcells hout
  have hself : ∀ d : Color, m'.arena.Passed x d ↔ d.rank ≤ col.rank := by
    intro d
    have hx := hcells x
    rw [if_pos rfl] at hx
    exact ⟨fun hp => hp.rank _ hx, fun hd => Arena.passed_of_cell? hx hd⟩
  have hother : ∀ y d, y ≠ x → (m'.arena.Passed y d ↔ m.arena.Passed y d) := by
    intro y d hy
    have hcell := (hcells y).trans (if_neg hy)
    constructor
    · rintro ⟨hc, hr⟩
      exact ⟨by simpa [hout.outline?] using hc, fun k hk => hr k (hcell.trans hk)⟩
    · rintro ⟨hc, hr⟩
      exact ⟨by simpa [hout.outline?] using hc, fun k hk => hr k (hcell.symm.trans hk)⟩
  have hbefore : ∀ d : Color, m.arena.Passed x d → d.rank < col.rank := by
    intro d hp
    have hr := hp.rank c ho.1
    omega
  refine ⟨⟨List.nodup_singleton _, ?_, ?_, fun y d hp => ?_, hmarked⟩, fun y d hp => ?_⟩
  · intro t ht d hp
    obtain rfl := List.mem_singleton.1 ht
    exact hbefore d hp
  · intro t ht
    obtain rfl := List.mem_singleton.1 ht
    exact (hself _).2 (Nat.le_refl _)
  · by_cases hy : y = x
    · subst hy
      exact (hself d).2 (Nat.le_of_lt (hbefore d hp))
    · exact (hother y d hy).2 hp
  · by_cases hy : y = x
    · subst hy
      rcases Nat.lt_or_eq_of_le ((hself d).1 hp) with hlt | heq
      · exact Or.inl (Arena.passed_of_cell? ho.1 (by omega))
      · rw [Color.rank_injective heq]
        exact Or.inr (List.mem_singleton.2 rfl)
    · exact Or.inl ((hother y d hy).1 hp)

/-! ### The turns of the operations -/

/-- The turn of shading an address, if it shades an object. -/
def shadeTurns (m : Marker) (addr : Nat) : List Turn :=
  if (m.arena.cell? addr).any (·.header.isUnreached) then [⟨addr, .gray⟩] else []

/-- The turns of shading several addresses. -/
def shadeAllTurns (m : Marker) : List Nat → List Turn
  | [] => []
  | addr :: rest => m.shadeTurns addr ++ (m.shade addr).shadeAllTurns rest

/-- The turns of blackening an address. -/
def blackenTurns (m : Marker) (addr : Nat) : List Turn :=
  match m.arena.cell? addr with
  | some c =>
    if c.header.state = .allocated ∧ c.header.color = .gray then
      ⟨addr, .black⟩ :: shadeAllTurns
        { m with
          arena := m.arena.modifyHeader c.block c.index (·.withColor .black)
          marked := m.marked + 1 } (m.arena.pointers c)
    else []
  | none => []

/-- The turns of taking up to `n` addresses off the gray list. -/
def advanceTurns : Nat → Marker → List Turn
  | 0, _ => []
  | n + 1, m =>
    match m.gray with
    | [] => []
    | addr :: rest =>
      blackenTurns { m with gray := rest } addr ++
        advanceTurns n ({ m with gray := rest }.blacken addr)

theorem turnsOnly_shade (m : Marker) (x : Nat) : TurnsOnly m (m.shadeTurns x) (m.shade x) := by
  unfold shadeTurns shade
  cases hx : m.arena.cell? x with
  | none => exact .refl (fun _ _ => Iff.rfl) rfl
  | some c =>
      by_cases hu : c.header.isUnreached = true
      · obtain ⟨hs, hw⟩ := Header.isUnreached_iff.1 hu
        simp only [Option.any_some, hu, if_true]
        exact turnsOnly_next ⟨hx, hs⟩ (by rw [hw]; rfl) rfl rfl
      · simp only [Option.any_some, hu]
        exact .refl (fun _ _ => Iff.rfl) rfl

theorem turnsOnly_shadeAll (xs : List Nat) (m : Marker) :
    TurnsOnly m (m.shadeAllTurns xs) (m.shadeAll xs) := by
  induction xs generalizing m with
  | nil => exact .refl (fun _ _ => Iff.rfl) rfl
  | cons x xs ih => exact (turnsOnly_shade m x).trans (ih (m.shade x))

theorem turnsOnly_blacken (m : Marker) (x : Nat) :
    TurnsOnly m (m.blackenTurns x) (m.blacken x) := by
  unfold blackenTurns blacken
  cases hx : m.arena.cell? x with
  | none => exact .refl (fun _ _ => Iff.rfl) rfl
  | some c =>
      by_cases hg : c.header.state = .allocated ∧ c.header.color = .gray
      · simp only [hg, and_self, if_true]
        have hfirst : TurnsOnly m [⟨x, .black⟩] { m with
            arena := m.arena.modifyHeader c.block c.index (·.withColor .black)
            marked := m.marked + 1 } :=
          turnsOnly_next ⟨hx, hg.1⟩ (by rw [hg.2]; rfl) rfl rfl
        exact hfirst.trans (turnsOnly_shadeAll _ _)
      · simp only [hg, if_false]
        exact .refl (fun _ _ => Iff.rfl) rfl

theorem turnsOnly_advance (n : Nat) (m : Marker) :
    TurnsOnly m (advanceTurns n m) (advance n m) := by
  induction n generalizing m with
  | zero => exact .refl (fun _ _ => Iff.rfl) rfl
  | succ n ih =>
      cases hg : m.gray with
      | nil =>
          simp only [advanceTurns, advance, hg]
          exact .refl (fun _ _ => Iff.rfl) rfl
      | cons x rest =>
          simp only [advanceTurns, advance, hg]
          have hpopped : TurnsOnly m [] { m with gray := rest } := .refl (fun _ _ => Iff.rfl) rfl
          exact hpopped.trans ((turnsOnly_blacken _ x).trans (ih _))

end Marker

namespace Heap

open Marker (TurnsOnly)

variable {h h' : Heap} {l : Act} {x : Nat} {c d : Cell} {col : Color} {P : Act → Prop}

/-- The turns that the marker of the attached collector makes. -/
def turnsBy (h : Heap) (log : Marker → List Turn) : List Turn :=
  if h.collector.isSome then log h.marker else []

/-- The turns of shading the remembered addresses. -/
def drainTurns (h : Heap) : List Turn := h.turnsBy (·.shadeAllTurns h.barrier.toList)

/-- The turns of shading roots. -/
def rootTurns (h : Heap) (roots : List Nat) : List Turn :=
  h.turnsBy (·.shadeAllTurns (roots ++ h.records.roots))

/-- The turns of taking up to `n` addresses off the gray list. -/
def stepTurns (h : Heap) (n : Nat) : List Turn :=
  h.drainTurns ++ h.drainBarrier.turnsBy (Marker.advanceTurns n)

/-- The turns of marking until no object is gray. -/
def allTurns (h : Heap) : List Turn :=
  h.drainTurns ++ h.drainBarrier.turnsBy fun m => Marker.advanceTurns m.workload m

/-- The turns of marking the objects whose finalizers are queued. -/
def resurrectTurns (h : Heap) : List Turn :=
  let dead := h.resurrectable
  if dead.isEmpty then []
  else
    let queued := dead.foldl resurrect h
    queued.turnsBy (·.shadeAllTurns dead) ++ (queued.marking (·.shadeAll dead)).allTurns

theorem turnsOnly_marking
    {f : Marker → Marker} {log : Marker → List Turn}
    (hf : ∀ m, TurnsOnly m (log m) (f m))
    (h : Heap) :
    TurnsOnly h.marker (h.turnsBy log) (h.marking f).marker := by
  unfold turnsBy
  by_cases hc : h.collector.isSome = true
  · rw [if_pos hc, marker_marking hc]
    exact hf h.marker
  · have hnone : h.collector = none := by simpa using hc
    rw [if_neg hc, marking, hnone]
    exact .refl (fun _ _ => Iff.rfl) rfl

theorem turnsOnly_shadeRoots (h : Heap) (roots : List Nat) :
    TurnsOnly h.marker (h.rootTurns roots) (h.shadeRoots roots).marker :=
  turnsOnly_marking (Marker.turnsOnly_shadeAll _) h

theorem turnsOnly_drainBarrier (h : Heap) :
    TurnsOnly h.marker h.drainTurns h.drainBarrier.marker :=
  turnsOnly_marking (Marker.turnsOnly_shadeAll h.barrier.toList) { h with barrier := #[] }

theorem turnsOnly_markStep (h : Heap) (n : Nat) :
    TurnsOnly h.marker (h.stepTurns n) (h.markStep n).marker :=
  (turnsOnly_drainBarrier h).trans (turnsOnly_marking (Marker.turnsOnly_advance n) _)

theorem turnsOnly_markAll (h : Heap) : TurnsOnly h.marker h.allTurns h.markAll.marker :=
  (turnsOnly_drainBarrier h).trans
    (turnsOnly_marking (fun m => Marker.turnsOnly_advance m.workload m) _)

/-- Queueing finalizers leaves every color as it is. -/
theorem turnsOnly_resurrectEach (xs : List Nat) (h : Heap) :
    TurnsOnly h.marker [] (xs.foldl resurrect h).marker := by
  induction xs generalizing h with
  | nil => exact .refl (fun _ _ => Iff.rfl) rfl
  | cons x xs ih =>
      have hfirst : TurnsOnly h.marker [] (h.resurrect x).marker := by
        refine .refl (fun y d => ?_) ?_
        · change (h.resurrect x).arena.Passed y d ↔ h.arena.Passed y d
          rw [arena_resurrect]
          split
          · refine Arena.passed_congr (Arena.sameOutline_modifyHeaderAt _ _ _) fun z => ?_
            rw [Arena.cell?_modifyHeaderAt]
            by_cases hz : z = x
            · subst hz
              rw [if_pos rfl]
              cases h.arena.cell? z <;> rfl
            · rw [if_neg hz]
          · exact Iff.rfl
        · unfold marker
          rw [(sameCycle_resurrect h x).collector]
      exact hfirst.trans (ih (h.resurrect x))

theorem turnsOnly_resurrectAll (h : Heap) :
    TurnsOnly h.marker h.resurrectTurns h.resurrectAll.2.marker := by
  unfold resurrectTurns resurrectAll
  simp only
  split
  · exact .refl (fun _ _ => Iff.rfl) rfl
  · exact (turnsOnly_resurrectEach _ h).trans
      ((turnsOnly_marking (Marker.turnsOnly_shadeAll h.resurrectable) _).trans
        (turnsOnly_markAll _))

/-! ### What happens between the turns -/

/-- Every gray object is on the list of the attached collector. -/
def Listed (h : Heap) : Prop :=
  ∀ x c, h.arena.Object x c → c.header.color = .gray → x ∈ h.grays

/-- While a cycle runs no address falls behind a color that it has passed. -/
theorem Tick.passed
    (hs : h.Sound)
    (ht : Tick h l h')
    (hbegin : l ≠ .begin)
    (hidle : h.phase ≠ .idle)
    (hp : h.arena.Passed x col) :
    h'.arena.Passed x col := by
  obtain ⟨⟨b, hb⟩, hrank⟩ := hp
  constructor
  · rcases ht.outline? hs hb with hsame | ⟨-, k, sh, hrun⟩
    · exact ⟨b, hsame⟩
    · exact ⟨_, hrun⟩
  · intro d hd
    have hchange := ht.cellChange hs x
    rw [hd] at hchange
    generalize ho : h.arena.cell? x = o at hchange
    cases hchange with
    | @kept c hd' hc => exact Nat.le_trans (hrank c ho) (hc.rank_le_of_ne_idle hbegin hidle)
    | born ha hc =>
        rw [hc, Header.fresh, Phase.allocationColor_of_ne_idle hidle]
        exact Color.rank_le_black col
    | carved ha hc =>
        -- Only a block that was not carved before gets new free cells.
        subst ha
        cases ht with
        | @carve sp i a' hcarve =>
            obtain ⟨-, -, hlimit, hnone, -, hother⟩ := hs.layout.carveBlock hcarve
            have hne : (x - Arena.start) / blockSize ≠ i := by
              rintro rfl
              rw [Arena.outline?, hnone] at hb
              cases hb
            rw [show a'.cell? x = none from
              (Arena.cell?_congr hlimit (hother _ hne)).trans ho] at hd
            cases hd

/-- Gray objects stay on the list through whatever is not done by the marker. -/
theorem Tick.listed
    (hs : h.Sound)
    (ht : Tick h l h')
    (hpaint : l ≠ .paint)
    (hbegin : l ≠ .begin)
    (hm : h.phase.isMarking = true)
    (hi : h.Listed) :
    h'.Listed := by
  intro y d hd hg
  rw [ht.grays hpaint hbegin hm]
  rcases ht.object hs hpaint hbegin hd with ⟨-, hnew⟩ | ⟨e, he, -, -, hcol⟩
  · rw [hnew, Header.fresh,
      Phase.allocationColor_of_ne_idle (Phase.ne_idle_of_isMarking hm)] at hg
    cases hg
  · exact hi y e he (hcol ▸ hg)

/-- The marker keeps gray objects listed. -/
theorem listed_marking
    {f : Marker → Marker}
    (hc : h.collector.isSome = true)
    (hf : ∀ m : Marker, m.arena.Layout → m.arena.Tricolor m.gray (fun _ => True) →
      (f m).arena.Tricolor (f m).gray fun _ => True)
    (hl : h.arena.Layout)
    (hi : h.Listed) :
    (h.marking f).Listed := by
  have ht := hf h.marker hl ⟨hi, fun _ _ _ _ _ _ _ _ _ => trivial⟩
  intro y d hd hg
  rw [arena_marking hc] at hd
  rw [grays_marking hc]
  exact ht.listed y d hd hg

theorem listed_shadeAll
    (hc : h.collector.isSome = true)
    (hl : h.arena.Layout)
    (hi : h.Listed)
    (xs : List Nat) :
    (h.marking (·.shadeAll xs)).Listed :=
  listed_marking hc (fun _ _ ht => (Marker.tricolor_shadeAll xs ht).mono fun _ _ => trivial) hl hi

theorem listed_drainBarrier
    (hc : h.collector.isSome = true)
    (hl : h.arena.Layout)
    (hi : h.Listed) :
    h.drainBarrier.Listed :=
  listed_shadeAll (h := { h with barrier := #[] }) hc hl hi h.barrier.toList

theorem listed_markStep
    (hc : h.collector.isSome = true)
    (hl : h.arena.Layout)
    (hi : h.Listed)
    (n : Nat) :
    (h.markStep n).Listed :=
  listed_marking ((isSome_collector_drainBarrier h).trans hc)
    (fun _ hl ht => Marker.tricolor_advance n hl ht)
    ((drainBarrier_steps h).recolored.layout hl) (listed_drainBarrier hc hl hi)

theorem listed_markAll
    (hc : h.collector.isSome = true)
    (hl : h.arena.Layout)
    (hi : h.Listed) :
    h.markAll.Listed :=
  listed_marking ((isSome_collector_drainBarrier h).trans hc)
    (fun _ hl ht => Marker.tricolor_complete hl ht)
    ((drainBarrier_steps h).recolored.layout hl) (listed_drainBarrier hc hl hi)

/-- What every change of the kinds keeps while the collector marks, a sequence of them keeps. -/
theorem Steps.listed
    (hsteps : Steps P h h')
    (hs : h.Sound)
    (hpaint : ¬ P .paint)
    (hbegin : ¬ P .begin)
    (hturn : ¬ P .turn)
    (hm : h.phase.isMarking = true)
    (hi : h.Listed) :
    h'.Listed := by
  refine (hsteps.induct (R := fun g => g.phase.isMarking = true ∧ g.Listed) hs ⟨hm, hi⟩ ?_).2.2
  rintro g l g' hg ⟨hgm, hgi⟩ hl ht
  have hne : l ≠ .begin := fun e => hbegin (e ▸ hl)
  refine ⟨?_, ht.listed hg (fun e => hpaint (e ▸ hl)) hne hgm hgi⟩
  rw [ht.phase hne fun e => hturn (e ▸ hl)]
  exact hgm

theorem listed_resurrectAll
    (hs : h.Sound)
    (hc : h.collector.isSome = true)
    (hm : h.phase.isMarking = true)
    (hi : h.Listed) :
    h.resurrectAll.2.Listed := by
  unfold resurrectAll
  simp only
  split
  · exact hi
  · have hqueued := resurrectEach_steps h.resurrectable h
    have hsound := hqueued.sound hs
    have hc' : (h.resurrectable.foldl resurrect h).collector.isSome = true := by
      rw [collector_resurrectEach]
      exact hc
    have hshaded := marking_steps (fun m => Marker.recolored_shadeAll h.resurrectable m)
      (h.resurrectable.foldl resurrect h)
    exact listed_markAll ((isSome_collector_marking _ _).trans hc')
      (hshaded.recolored.layout hsound.layout)
      (listed_shadeAll hc' hsound.layout
        (hqueued.listed hs (by simp) (by simp) (by simp) hm hi) h.resurrectable)

theorem Steps.passed
    (hsteps : Steps P h h')
    (hs : h.Sound)
    (hbegin : ¬ P .begin)
    (hturn : ¬ P .turn)
    (hidle : h.phase ≠ .idle)
    (hp : h.arena.Passed x col) :
    h'.arena.Passed x col := by
  refine (hsteps.induct (R := fun g => g.phase ≠ .idle ∧ g.arena.Passed x col) hs
    ⟨hidle, hp⟩ ?_).2.2
  rintro g l g' hg ⟨hgi, hgp⟩ hl ht
  have hne : l ≠ .begin := fun e => hbegin (e ▸ hl)
  refine ⟨?_, ht.passed hg hne hgi hgp⟩
  rw [ht.phase hne fun e => hturn (e ▸ hl)]
  exact hgi

/-- The color of an object changes by painting and when a cycle begins only, if no object is freed
and replaced. -/
theorem Steps.sameColor
    (hsteps : Steps P h h')
    (hs : h.Sound)
    (hx : h.arena.Object x c)
    (hpaint : ¬ P .paint)
    (hbegin : ¬ P .begin)
    (hbirth : P (.birth x) → ¬ P (.park x) ∧ ¬ P (.reclaim x))
    (hx' : h'.arena.Object x d) :
    d.header.color = c.header.color := by
  have hcolor := hsteps.induct_object (R := fun g => ∃ e, g.arena.Object x e ∧
    e.header.color = c.header.color) hs hx.isAllocated ⟨c, hx, rfl⟩ hbirth hx'.isAllocated ?_
  · obtain ⟨e, he, hcol⟩ := hcolor
    rw [hx'.unique he]
    exact hcol
  · rintro g l g' hg hal ⟨e, he, hcol⟩ hl ht hkept
    obtain ⟨k, hk⟩ := Arena.exists_object hkept
    rcases ht.object hg (fun e => hpaint (e ▸ hl)) (fun e => hbegin (e ▸ hl)) hk with
      ⟨rfl, -⟩ | ⟨e', he', -, -, hcol'⟩
    · rw [(ht.born hg).1] at hal
      cases hal
    · rw [he'.unique he] at hcol'
      exact ⟨k, hk, hcol'.trans hcol⟩

end Heap

end EagerHeap
