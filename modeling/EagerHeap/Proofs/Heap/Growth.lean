import EagerHeap.Proofs.Heap.Bytes
import EagerHeap.Proofs.Heap.Frees
import EagerHeap.Proofs.Heap.Obtaining
/-!
# Handing a buffer over

A buffer that grows is handed over to a new object: bytes of the old object are copied, and the old
object is freed eagerly if that is accepted. `Grown` says what this makes of a heap, for the two
objects and for all others.

Main result: `Provides.grown`.
-/

namespace EagerHeap

namespace Heap

/-- The heap after bytes of an old buffer, if there is one, were copied to a new object. -/
def carryOver (h : Heap) (old a kept : Nat) (sh : Shape) : Heap :=
  if old ≠ 0 ∧ 0 < kept then h.copyBytes old a kept sh else h

/-- The heap after a worker has tried to free an old buffer, if there is one. -/
def letGo (h : Heap) (id old a size : Nat) (sh : Shape) : Heap :=
  if old ≠ 0 ∧ old ≠ a then
    match h.free id old size (some sh) with
    | (none, g) => g.count id .growFrees 1
    | (some _, g) => g
  else h

/-- What the growth of a buffer makes of a heap: the buffer `old`, of `size` bytes, is handed over to
the object `a`, which has room for `need` bytes, and `kept` bytes are kept. -/
structure Grown (h : Heap) (id old size kept a need : Nat) (sh : Shape) (g : Heap) : Prop where
  /-- The buffer is another one than before. -/
  apart : a ≠ old
  /-- There was no object where the new one is. -/
  absent : h.arena.isAllocated a = false
  /-- The new object has room and the shape, and no record is attached to it. -/
  object : ∃ d, g.arena.Object a d ∧ d.Serves need sh
  /-- The new object has the bytes that are kept, and zeros behind them. -/
  bytes : ∀ d, g.arena.Object a d → ∀ j < d.size,
    g.readByte a j = if old ≠ 0 ∧ j < kept then h.readByte old j else 0
  /-- The old object is freed if this is accepted. -/
  freed : ∀ c, h.arena.Object old c → (h.free id old size (some sh)).1 = none →
    g.arena.cell? old = some { c with header := c.header.withState .cached }
  /-- Otherwise the old object stays. -/
  declined : ∀ c, h.arena.Object old c → (h.free id old size (some sh)).1 ≠ none →
    g.arena.Object old c ∧ ∀ i < c.size / Word.bytes, g.readWord old i = h.readWord old i
  /-- All other cells stay as they are. -/
  cells : ∀ y c, y ≠ a → y ≠ old → h.arena.cell? y = some c → g.arena.cell? y = some c
  /-- Cells that come into being are free. -/
  carved : ∀ y c, y ≠ a → y ≠ old → h.arena.cell? y = none → g.arena.cell? y = some c →
    c.header = {}
  /-- All other objects keep their words. -/
  words : ∀ y c, y ≠ a → y ≠ old → h.arena.Object y c → ∀ i < c.size / Word.bytes,
    g.readWord y i = h.readWord y i

variable {h g f : Heap} {id size need kept x y old a : Nat} {sh : Shape} {c d : Cell}

/-- Copying changes words only. -/
theorem cell?_carryOver (h : Heap) (old a kept : Nat) (sh : Shape) (x : Nat) :
    (h.carryOver old a kept sh).arena.cell? x = h.arena.cell? x := by
  rw [carryOver]
  split
  · rw [arena_copyBytes, Arena.cell?_copy]
  · rfl

theorem carryOver_steps
    (ha : ∃ d, h.arena.Object a d ∧ d.Serves need sh)
    (hkept : kept ≤ need)
    (old : Nat) :
    Steps (· = .copy old a kept sh) h (h.carryOver old a kept sh) := by
  obtain ⟨d, hobj, hserves⟩ := ha
  rw [carryOver]
  split
  · rw [← hserves.shape]
    exact Steps.single rfl (.copy old hobj.1 hobj.2 (hkept.trans hserves.room))
  · exact Steps.refl h

theorem letGo_steps
    (hs : h.Sound)
    (id old a size : Nat) (sh : Shape) :
    Steps (fun l => l = .still ∨ l = .park old) h (h.letGo id old a size sh) := by
  have hfree := free_steps hs id old size (some sh)
  rw [letGo]
  split
  · split
    · next g hr =>
        rw [hr] at hfree
        exact hfree.trans ((still_count g id .growFrees 1).steps.mono fun l hl => Or.inl hl)
    · next reason g hr =>
        rw [hr] at hfree
        exact hfree
  · exact Steps.refl h

/-- An old object that is not freed stays as it is. -/
theorem letGo_steps_of_declined
    (hs : h.Sound)
    (hdeclined : (h.free id old size (some sh)).1 ≠ none)
    (a : Nat) :
    Steps (· = .still) h (h.letGo id old a size sh) := by
  rw [letGo]
  split
  · rcases free_cases hs id old size (some sh) with ⟨hnone, -⟩ | ⟨-, hsteps⟩
    · exact absurd hnone hdeclined
    · split
      · next g hr => exact absurd (congrArg Prod.fst hr) hdeclined
      · next reason g hr =>
          rw [hr] at hsteps
          exact hsteps
  · exact Steps.refl h

theorem cell?_letGo_of_freed
    (hl : h.arena.Layout)
    (hx : h.arena.cell? old = some c)
    (hne : old ≠ a)
    (hfree : (h.free id old size (some sh)).1 = none) :
    (h.letGo id old a size sh).arena.cell? old =
      some { c with header := c.header.withState .cached } := by
  have hcell := cell?_free hl hx hfree
  rw [letGo, if_pos ⟨Arena.ne_zero_of_contains (Arena.contains_of_cell? hx), hne⟩]
  split
  · next g hr =>
      rw [hr] at hcell
      exact hcell
  · next reason g hr =>
      rw [hr] at hfree
      cases hfree

/-- Handing a buffer over touches the two objects only. -/
theorem Provides.steps_handOver
    (hp : h.Provides a need sh f)
    (hs : h.Sound)
    (hkept : kept ≤ need)
    (id old size : Nat) :
    Steps (fun l => ∀ y, y ≠ a → y ≠ old → ¬ l.Touches y) h
      ((f.carryOver old a kept sh).letGo id old a size sh) := by
  have hcarry := carryOver_steps hp.object hkept old
  have hgo := letGo_steps (hcarry.sound (hp.steps.sound hs)) id old a size sh
  refine (hp.steps.mono fun l hl => ?_).trans
    ((hcarry.mono fun l hl => ?_).trans (hgo.mono fun l hl => ?_))
  · rcases hl with rfl | rfl | rfl
    · exact fun _ _ _ => not_false
    · exact fun _ _ _ => not_false
    · exact fun y ha _ e => ha e.symm
  · subst hl
    exact fun y ha _ e => ha e.symm
  · rcases hl with rfl | rfl
    · exact fun _ _ _ => not_false
    · exact fun y _ ho e => ho e.symm

/-- The objects that are there before an allocation stay as they are. -/
theorem Provides.stays
    (hp : h.Provides a need sh f)
    (hs : h.Sound)
    (ho : h.arena.Object x c) :
    x ≠ a ∧ f.arena.Object x c ∧
      ∀ i < c.size / Word.bytes, f.readWord x i = h.readWord x i := by
  have hne : x ≠ a := by
    rintro rfl
    have habsent := hp.absent
    rw [ho.isAllocated] at habsent
    cases habsent
  have htouch : ∀ l, (l = .still ∨ l = .carve ∨ l = .birth a) → ¬ Act.Touches x l := by
    rintro l (rfl | rfl | rfl)
    · exact not_false
    · exact not_false
    · exact fun e => hne e.symm
  exact ⟨hne, ⟨(hp.steps.untouched hs htouch).1 c ho.1, ho.2⟩, hp.steps.readWord hs htouch ho⟩

/-- Copying from an old object leaves it as it is. -/
theorem Provides.carried_old
    (hp : h.Provides a need sh f)
    (hs : h.Sound)
    (hkept : kept ≤ need)
    (ho : h.arena.Object old c) :
    (f.carryOver old a kept sh).arena.Object old c ∧
      ∀ i < c.size / Word.bytes, (f.carryOver old a kept sh).readWord old i = h.readWord old i := by
  obtain ⟨hne, hobj, hwords⟩ := hp.stays hs ho
  have hf := hp.steps.sound hs
  have hcarry := carryOver_steps hp.object hkept old
  have htouch : ∀ l, l = .copy old a kept sh → ¬ Act.Touches old l := by
    rintro l rfl
    exact fun e => hne e.symm
  exact ⟨⟨(hcarry.untouched hf htouch).1 c hobj.1, ho.2⟩, fun i hi =>
    (hcarry.readWord hf htouch hobj i hi).trans (hwords i hi)⟩

/-- An old object is accepted by an eager free after its bytes were copied exactly if it was before. -/
theorem Provides.free_carried
    (hp : h.Provides a need sh f)
    (hs : h.Sound)
    (hkept : kept ≤ need)
    (ho : h.arena.Object old c)
    (id size : Nat) :
    ((f.carryOver old a kept sh).free id old size (some sh)).1 = none ↔
      (h.free id old size (some sh)).1 = none := by
  have hcarry := carryOver_steps hp.object hkept old
  have hcarried := hcarry.sound (hp.steps.sound hs)
  rw [free_eq_none_iff hcarried.layout (hp.carried_old hs hkept ho).1.1,
    free_eq_none_iff hs.layout ho.1, hcarry.config.trans hp.steps.config]

/-- The new object holds the bytes that were copied. -/
theorem Provides.carried_new
    (hp : h.Provides a need sh f)
    (hs : h.Sound)
    (hold : old = 0 ∨ ∃ c, h.arena.Object old c ∧ kept ≤ c.size)
    (hobj : f.arena.Object a d)
    (j : Nat)
    (hj : j < d.size) :
    (f.carryOver old a kept sh).readByte a j =
      if old ≠ 0 ∧ j < kept then h.readByte old j else 0 := by
  have hf := hp.steps.sound hs
  have hzeros := hp.zeros d hobj
  by_cases hcopy : old ≠ 0 ∧ 0 < kept
  · obtain ⟨c, ho, hle⟩ := hold.resolve_left hcopy.1
    obtain ⟨hne, hsource, hwords⟩ := hp.stays hs ho
    rw [carryOver, if_pos hcopy,
      readByte_copyBytes hf.layout hsource.1 hobj.1 hne hle hzeros hj]
    by_cases hlt : j < kept
    · have hmod := (hs.layout.aligned ho.1).2
      rw [if_pos hlt, if_pos ⟨hcopy.1, hlt⟩,
        readByte_of_words hwords hmod (Nat.lt_of_lt_of_le hlt hle)]
    · rw [if_neg hlt, if_neg fun hand => hlt hand.2]
  · have hi : j / Word.bytes < d.size / Word.bytes := by
      have hmod := (hf.layout.aligned hobj.1).2
      simp only [Word.bytes] at hmod ⊢
      omega
    rw [carryOver, if_neg hcopy, readByte, hzeros _ hi, Nat.zero_div, Nat.zero_mod,
      if_neg fun hand => hcopy ⟨hand.1, Nat.zero_lt_of_lt hand.2⟩]

/-- Letting the old object go leaves the new one as it is. -/
theorem Provides.handed
    (hp : h.Provides a need sh f)
    (hs : h.Sound)
    (hold : old = 0 ∨ ∃ c, h.arena.Object old c)
    (hkept : kept ≤ need)
    (hd : f.arena.Object a d)
    (id size : Nat) :
    old ≠ a ∧ ((f.carryOver old a kept sh).letGo id old a size sh).arena.Object a d ∧
      ∀ i < d.size / Word.bytes,
        ((f.carryOver old a kept sh).letGo id old a size sh).readWord a i =
          (f.carryOver old a kept sh).readWord a i := by
  have hcarried := (carryOver_steps hp.object hkept old).sound (hp.steps.sound hs)
  have hgo := letGo_steps hcarried id old a size sh
  have hobj : (f.carryOver old a kept sh).arena.Object a d :=
    ⟨(cell?_carryOver ..).trans hd.1, hd.2⟩
  have hne : old ≠ a := by
    rintro rfl
    rcases hold with rfl | ⟨c, ho⟩
    · exact Arena.ne_zero_of_contains (Arena.contains_of_cell? hd.1) rfl
    · exact (hp.stays hs ho).1 rfl
  have htouch : ∀ l : Act, (l = .still ∨ l = .park old) → ¬ l.Touches a := by
    rintro l (rfl | rfl)
    · exact not_false
    · exact hne
  exact ⟨hne, ⟨(hgo.untouched hcarried htouch).1 d hobj.1, hobj.2⟩,
    hgo.readWord hcarried htouch hobj⟩

/-- A buffer that is handed over to a new object has grown. -/
theorem Provides.grown
    (hp : h.Provides a need sh f)
    (hs : h.Sound)
    (hold : old = 0 ∨ ∃ c, h.arena.Object old c ∧ kept ≤ c.size)
    (hkept : kept ≤ need)
    (id size : Nat) :
    h.Grown id old size kept a need sh
      ((f.carryOver old a kept sh).letGo id old a size sh) := by
  have hf := hp.steps.sound hs
  have hcarried := (carryOver_steps hp.object hkept old).sound hf
  have hsteps := hp.steps_handOver hs hkept id old size
  have hothers : ∀ y, y ≠ a → y ≠ old → ∀ l : Act,
      (∀ x, x ≠ a → x ≠ old → ¬ l.Touches x) → ¬ l.Touches y := fun y ha ho l hl => hl y ha ho
  obtain ⟨d, hobj, hserves⟩ := hp.object
  have hbytes := hp.carried_new hs hold hobj
  obtain ⟨hne, hnew, hwords⟩ := hp.handed hs (hold.imp_right fun ⟨c, ho, _⟩ => ⟨c, ho⟩) hkept hobj
    id size
  exact {
    apart := hne.symm
    absent := hp.absent
    object := ⟨d, hnew, hserves⟩
    bytes := fun e he j hj => by
      obtain rfl := he.unique hnew
      have hmod := (hf.layout.aligned hobj.1).2
      rw [readByte_of_words hwords hmod hj, hbytes j hj]
    freed := fun c ho hfree =>
      cell?_letGo_of_freed hcarried.layout (hp.carried_old hs hkept ho).1.1 hne
        ((hp.free_carried hs hkept ho id size).2 hfree)
    declined := fun c ho hdeclined => by
      have hstill := letGo_steps_of_declined (a := a) hcarried fun hfree =>
        hdeclined ((hp.free_carried hs hkept ho id size).1 hfree)
      have htouch : ∀ l : Act, l = .still → ¬ l.Touches old := by
        rintro l rfl
        exact not_false
      obtain ⟨hsource, hwords⟩ := hp.carried_old hs hkept ho
      exact ⟨⟨(hstill.untouched hcarried htouch).1 c hsource.1, ho.2⟩, fun i hi =>
        (hstill.readWord hcarried htouch hsource i hi).trans (hwords i hi)⟩
    cells := fun y c ha ho hy => (hsteps.untouched hs (hothers y ha ho)).1 c hy
    carved := fun y c ha ho hy hy' => (hsteps.untouched hs (hothers y ha ho)).2 hy c hy'
    words := fun y c ha ho hy => hsteps.readWord hs (hothers y ha ho) hy }

/-! ### How a growth goes -/

/-- The bytes of a buffer that a growth keeps. -/
def keptBytes (capacity length extra elementSize : Nat) : Nat :=
  min (length - extra) capacity * elementSize

/-- How a growth goes that nothing interrupts, with its outcome and the heap that it leaves. -/
inductive Growing (id old capacity length elementSize : Nat) (sh : Shape) (extra : Nat) :
    Heap → Except Failure (Nat × Nat) → Heap → Prop
  /-- There is no capacity that suffices. -/
  | refused {h : Heap} {o : Failure} (hc : nextCapacity capacity length elementSize = .error o) :
      Growing id old capacity length elementSize sh extra h (.error o) (h.count id .growCalls 1)
  /-- There is no room for the new object. -/
  | failed {h g : Heap} {o : Failure} {next : Nat}
      (hc : nextCapacity capacity length elementSize = .ok next)
      (ho : Obtaining id (next * elementSize) sh (h.count id .growCalls 1) (.error o) g) :
      Growing id old capacity length elementSize sh extra h (.error o) g
  /-- The buffer is handed over to a new object. -/
  | grown {h f : Heap} {a next : Nat}
      (hc : nextCapacity capacity length elementSize = .ok next)
      (ho : Obtaining id (next * elementSize) sh (h.count id .growCalls 1) (.ok a) f) :
      Growing id old capacity length elementSize sh extra h (.ok (a, next))
        ((f.carryOver old a (keptBytes capacity length extra elementSize) sh).letGo id old a
          (capacity * elementSize) sh)

theorem Growing.ofRoom
    {capacity length elementSize extra : Nat} {r : Except Failure (Nat × Nat)} {o : Failure}
    (hgrow : Growing id old capacity length elementSize sh extra h r g)
    (hpos : 0 < elementSize)
    (hr : r = .error o) :
    o.OfRoom := by
  cases hgrow with
  | refused hc =>
      cases hr
      exact ofRoom_of_nextCapacity hpos hc
  | failed hc ho =>
      cases hr
      exact ho.ofRoom rfl
  | grown => cases hr

/-- Counting an operation beforehand makes no difference. -/
theorem Provides.of_count
    {k : Counter} {n : Nat}
    (hp : (h.count id k n).Provides a need sh f) :
    h.Provides a need sh f :=
  ⟨((still_count h id k n).steps.mono fun _ hl => Or.inl hl).trans hp.steps, hp.absent, hp.object,
    hp.zeros⟩

theorem keptBytes_le (capacity length extra elementSize : Nat) :
    keptBytes capacity length extra elementSize ≤ capacity * elementSize :=
  Nat.mul_le_mul_right _ (Nat.min_le_right ..)

/-- A growth that succeeds hands the buffer over to an object that an allocation provides. -/
theorem Growing.handsOver
    {capacity length elementSize extra next : Nat} {r : Except Failure (Nat × Nat)}
    (hgrow : Growing id old capacity length elementSize sh extra h r g)
    (hs : h.Sound)
    (hr : r = .ok (a, next)) :
    max length 1 ≤ next ∧ keptBytes capacity length extra elementSize ≤ next * elementSize ∧
      ∃ f, h.Provides a (next * elementSize) sh f ∧
        g = (f.carryOver old a (keptBytes capacity length extra elementSize) sh).letGo id old a
          (capacity * elementSize) sh := by
  cases hgrow with
  | refused | failed => cases hr
  | @grown f a next hc ho =>
      cases hr
      have hle := le_nextCapacity hc
      have hcounted := (still_count h id .growCalls 1).steps.sound hs
      exact ⟨hle, Nat.mul_le_mul_right _ (by omega), f, (ho.provides hcounted rfl).of_count, rfl⟩

/-- What a growth that succeeds makes of a heap. -/
theorem Growing.spec
    {capacity length elementSize extra next : Nat} {r : Except Failure (Nat × Nat)}
    (hgrow : Growing id old capacity length elementSize sh extra h r g)
    (hs : h.Sound)
    (hold : old = 0 ∨ ∃ c, h.arena.Object old c ∧ capacity * elementSize ≤ c.size)
    (hr : r = .ok (a, next)) :
    max length 1 ≤ next ∧
      h.Grown id old (capacity * elementSize) (keptBytes capacity length extra elementSize) a
        (next * elementSize) sh g := by
  obtain ⟨hle, hkept, f, hp, rfl⟩ := hgrow.handsOver hs hr
  exact ⟨hle, hp.grown hs (hold.imp_right fun ⟨c, ho, hsize⟩ =>
    ⟨c, ho, (keptBytes_le ..).trans hsize⟩) hkept id _⟩

end Heap

end EagerHeap
