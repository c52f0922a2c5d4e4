import EagerHeap.Proofs.Heap.Operations
import EagerHeap.Proofs.Marking.Marker
/-!
# New objects and the objects beside them

A new object is handed out at an address where no object was. It starts with a fresh header and with
zeros, and whatever is done to other objects leaves its words alone.

Main results: `HandsOut.fresh`, `Steps.words` and `Steps.untouched`.
-/

namespace EagerHeap

/-- The elementary changes that write words of existing objects. -/
def Act.Writes : Act → Prop
  | .store .. | .copy .. => True
  | _ => False

/-- The change may concern the object at an address. -/
def Act.Touches (y : Nat) : Act → Prop
  | .still | .carve | .batch | .turn | .account => False
  | .birth x | .park x | .uncache x | .reclaim x | .store x _ _ | .copy _ x _ _ | .attach x _
  | .finalize x | .cleanup x => x = y
  | .paint | .begin => True

namespace Heap

variable {h h' g : Heap} {l : Act} {x y i : Nat} {c d : Cell} {P : Act → Prop}

/-- Objects are handed out where there is none, with a fresh header. -/
theorem Tick.born
    (hs : h.Sound)
    (ht : Tick h (.birth x) h') :
    h.arena.isAllocated x = false ∧
      ∃ c, h'.arena.Object x c ∧ c.header = Header.fresh h.phase.allocationColor := by
  generalize hl : Act.birth x = l at ht
  cases ht with
  | @birthCell y d hy hne =>
      cases hl
      constructor
      · rw [Arena.isAllocated, hy]
        simpa using hne
      · have hcell : (h.arena.withMemory
            (·.clear (Arena.wordIndex x) (d.size / Word.bytes))).cell? x = some d :=
          (Arena.cell?_withMemory ..).trans hy
        have hnew := Arena.cell?_modifyHeader_of_cell hcell
          (fun _ => Header.fresh h.phase.allocationColor) x
        rw [if_pos rfl] at hnew
        exact ⟨_, ⟨hnew, rfl⟩, rfl⟩
  | @birthRun n j a' sh hn hc =>
      cases hl
      have ht : Tick h _ _ := Tick.birthRun sh hn hc
      have htaken := hs.layout.runTaken hn hc
      obtain ⟨hself, hother⟩ := htaken.open_blocks hn sh (Arena.blockBase j) (n * blockSize)
        h.phase.allocationColor
      obtain ⟨hnone, hcells⟩ := hs.layout.cell?_openRun (ht.layout hs) hn htaken rfl hself hother
      constructor
      · rw [Arena.isAllocated, hnone]
      · exact ⟨_, ⟨(hcells _).trans (if_pos rfl), rfl⟩, rfl⟩
  | _ => cases hl

theorem Steps.still
    (hsteps : Steps (· = .still) h h') :
    (∀ x, h'.arena.cell? x = h.arena.cell? x) ∧ h'.arena.memory = h.arena.memory ∧
      h'.phase = h.phase := by
  induction hsteps with
  | refl => exact ⟨fun _ => rfl, rfl, rfl⟩
  | tail _ hlast ih =>
      obtain ⟨l, rfl, ht⟩ := hlast
      obtain ⟨hcells, hmemory, hphase⟩ := ih
      cases ht with
      | still hst =>
          refine ⟨fun x => ?_, hst.memory.trans hmemory, hst.phase.trans hphase⟩
          rw [hst.outline.cell?_eq_map (fun _ _ hd => hd) (fun b k => by simp [hst.headers b k])]
          simpa using hcells x

/-- What is handed out: an object where there was none, with a fresh header and zeros in all its
words. -/
theorem HandsOut.fresh
    (hs : h.Sound)
    (ho : HandsOut h x h') :
    h.arena.isAllocated x = false ∧
      ∃ c, h'.arena.Object x c ∧ c.header = Header.fresh h.phase.allocationColor ∧
        ∀ i < c.size / Word.bytes, h'.arena.memory.read (Arena.wordIndex x + i) = 0 := by
  obtain ⟨g, g', hbefore, ht, hafter⟩ := ho
  obtain ⟨hcells, -, hphase⟩ := hbefore.still
  obtain ⟨hcells', hmemory', -⟩ := hafter.still
  have hg := hbefore.sound hs
  obtain ⟨hnone, c, hc, hfresh⟩ := ht.born hg
  constructor
  · rwa [Arena.isAllocated, hcells] at hnone
  · refine ⟨c, ⟨(hcells' x).trans hc.1, hc.2⟩, by rw [hfresh, hphase], fun i hi => ?_⟩
    rw [hmemory']
    exact ht.zeros hg hc.1 hi

/-- Changes that do not replace an object: what each of them keeps as long as the object is there
holds at their end, if the object is still there. -/
theorem Steps.induct_object
    {R : Heap → Prop}
    (hsteps : Steps P h h')
    (hs : h.Sound)
    (hx : h.arena.isAllocated x = true)
    (hR : R h)
    (hbirth : P (.birth x) → ¬ P (.park x) ∧ ¬ P (.reclaim x))
    (hx' : h'.arena.isAllocated x = true)
    (hstep : ∀ g l g', g.Sound → g.arena.isAllocated x = true → R g → P l → Tick g l g' →
      g'.arena.isAllocated x = true → R g') :
    R h' := by
  have hall := (hsteps.induct (R := fun g => g.arena.isAllocated x = true ∧ R g ∨
    g.arena.isAllocated x = false ∧ ¬ P (.birth x)) hs (Or.inl ⟨hx, hR⟩) ?_).2
  · rcases hall with ⟨-, hR'⟩ | ⟨hnone, -⟩
    · exact hR'
    · rw [hx'] at hnone
      cases hnone
  · rintro g l g' hg hor hl ht
    have hchange := ht.cellChange hg x
    rcases hor with ⟨hal, hRg⟩ | ⟨hnone, hnot⟩
    · by_cases hkept : g'.arena.isAllocated x = true
      · exact Or.inl ⟨hkept, hstep g l g' hg hal hRg hl ht hkept⟩
      · refine Or.inr ⟨Bool.eq_false_iff.2 hkept, fun hb => hkept ?_⟩
        obtain ⟨hpark, hreclaim⟩ := hbirth hb
        obtain ⟨c, ho⟩ := Arena.exists_object hal
        rw [ho.1] at hchange
        obtain ⟨k, hk, hst, -⟩ := hchange.stays ho.2 (fun e => hpark (e ▸ hl))
          (fun e => absurd (e ▸ hl) hreclaim)
        exact Arena.isAllocated_iff.2 ⟨_, hk, hst⟩
    · refine Or.inr ⟨Bool.eq_false_iff.2 fun hborn => ?_, hnot⟩
      obtain ⟨d, hd⟩ := Arena.exists_object hborn
      rw [hd.1] at hchange
      have hnew := (hchange.birth hd.2 fun c hc hst => ?_).1
      · exact hnot (hnew ▸ hl)
      · rw [Arena.isAllocated_iff.2 ⟨c, hc, hst⟩] at hnone
        cases hnone

/-- If an object is still there after changes that write no words and do not replace it, it is the
same object with the same words. -/
theorem Steps.words
    (hsteps : Steps P h h')
    (hs : h.Sound)
    (hx : h.arena.Object x c)
    (hwrites : ∀ l, P l → ¬ l.Writes)
    (hbirth : P (.birth x) → ¬ P (.park x) ∧ ¬ P (.reclaim x))
    (hx' : h'.arena.isAllocated x = true) :
    ∃ hd, h'.arena.Object x { c with header := hd } ∧
      ∀ i < c.size / Word.bytes, h'.arena.memory.read (Arena.wordIndex x + i) =
        h.arena.memory.read (Arena.wordIndex x + i) := by
  refine hsteps.induct_object (R := fun g => ∃ hd, g.arena.Object x { c with header := hd } ∧
    ∀ i < c.size / Word.bytes, g.arena.memory.read (Arena.wordIndex x + i) =
      h.arena.memory.read (Arena.wordIndex x + i)) hs hx.isAllocated
    ⟨c.header, hx, fun _ _ => rfl⟩ hbirth hx' ?_
  rintro g l g' hg - ⟨hd, hobj, hwords⟩ hl ht hkept
  have hchange := ht.cellChange hg x
  obtain ⟨d, hd'⟩ := Arena.exists_object hkept
  rw [hobj.1, hd'.1] at hchange
  cases hchange with
  | @kept _ k hc =>
      refine ⟨k, hd', fun i hi => ?_⟩
      rw [ht.read hg hobj.1 hobj.2 hi]
      have hno := hwrites l hl
      cases l with
      | store => exact absurd trivial hno
      | copy => exact absurd trivial hno
      | _ => exact hwords i hi

/-! ### Objects that a change does not touch -/

/-- What an object keeps of its words, seen through its address. -/
theorem readWord_of_read
    (hl : h.arena.Layout)
    (hl' : g.arena.Layout)
    (hx : h.arena.cell? x = some c)
    (hx' : g.arena.cell? x = some d)
    (hread : g.arena.memory.read (Arena.wordIndex x + i) =
      h.arena.memory.read (Arena.wordIndex x + i)) :
    g.readWord x i = h.readWord x i := by
  rw [readWord_eq hl' hx', readWord_eq hl hx, hread]

/-- A cell that is not touched stays as it is; one that comes into being is free. -/
theorem Tick.untouched
    (hs : h.Sound)
    (ht : Tick h l g)
    (hy : ¬ l.Touches y) :
    (∀ c, h.arena.cell? y = some c → g.arena.cell? y = some c) ∧
      (h.arena.cell? y = none → ∀ c, g.arena.cell? y = some c → c.header = {}) := by
  have hchange := ht.cellChange hs y
  generalize h.arena.cell? y = o, g.arena.cell? y = o' at hchange
  cases hchange with
  | absent => exact ⟨fun c hc => hc, fun _ c hc => by cases hc⟩
  | carved ha hc =>
      refine ⟨fun c hc => (by cases hc), fun _ d hd => ?_⟩
      obtain rfl := Option.some.inj hd
      exact hc
  | born ha hc =>
      subst ha
      exact absurd rfl hy
  | removed ha hu hf =>
      subst ha
      exact absurd rfl hy
  | @kept c hd hc =>
      refine ⟨fun d hd => ?_, fun hnone => by cases hnone⟩
      obtain rfl := Option.some.inj hd
      cases hc with
      | same => rfl
      | paint | begin => exact absurd trivial hy
      | _ => exact absurd rfl hy

theorem Steps.untouched
    (hsteps : Steps P h g)
    (hs : h.Sound)
    (hy : ∀ l, P l → ¬ l.Touches y) :
    (∀ c, h.arena.cell? y = some c → g.arena.cell? y = some c) ∧
      (h.arena.cell? y = none → ∀ c, g.arena.cell? y = some c → c.header = {}) := by
  refine (hsteps.induct (R := fun g =>
    (∀ c, h.arena.cell? y = some c → g.arena.cell? y = some c) ∧
      (h.arena.cell? y = none → ∀ c, g.arena.cell? y = some c → c.header = {})) hs
    ⟨fun c hc => hc, fun hnone c hc => ?_⟩ ?_).2
  · rw [hnone] at hc
    cases hc
  · rintro g l g' hg ⟨hkept, hfree⟩ hl ht
    obtain ⟨hstays, hnew⟩ := ht.untouched hg (hy l hl)
    refine ⟨fun c hc => hstays c (hkept c hc), fun hnone c hc => ?_⟩
    cases hcell : g.arena.cell? y with
    | none => exact hnew hcell c hc
    | some d =>
        have hsame := hstays d hcell
        rw [hc] at hsame
        obtain rfl := Option.some.inj hsame
        exact hfree hnone c hcell

/-- An object that is not touched keeps its words. -/
theorem Steps.readWord
    (hsteps : Steps P h g)
    (hs : h.Sound)
    (hy : ∀ l, P l → ¬ l.Touches y)
    (hobj : h.arena.Object y c) :
    ∀ i < c.size / Word.bytes, g.readWord y i = h.readWord y i := by
  have hall := (hsteps.induct (R := fun g => g.arena.Object y c ∧
    ∀ i < c.size / Word.bytes, g.arena.memory.read (Arena.wordIndex y + i) =
      h.arena.memory.read (Arena.wordIndex y + i)) hs ⟨hobj, fun _ _ => rfl⟩ ?_)
  · obtain ⟨hg, hobj', hwords⟩ := hall
    exact fun i hi => readWord_of_read hs.layout hg.layout hobj.1 hobj'.1 (hwords i hi)
  · rintro g l g' hg ⟨hobj', hwords⟩ hl ht
    refine ⟨⟨(ht.untouched hg (hy l hl)).1 c hobj'.1, hobj'.2⟩, fun i hi => ?_⟩
    rw [ht.read hg hobj'.1 hobj'.2 hi, ← hwords i hi]
    have hno := hy l hl
    cases l with
    | store x j v => exact if_neg fun hand => hno hand.1
    | copy source target bytes sh => exact if_neg hno
    | _ => rfl

end Heap

end EagerHeap
