/-!
# Size classes and spans

Small objects are rounded up to one of fourteen cell sizes. A size class together with the pointer
shape of its objects is a span, and every block of small objects serves one span only, so that a
reused cell keeps the shape it was carved with. A `SpanTable` holds one value per span.
-/

namespace EagerHeap

/-- Whether an object may hold addresses of other objects. -/
inductive Shape where
  /-- The words of the object may be addresses. -/
  | scan
  /-- The object is plain data, which marking never reads. -/
  | noScan
deriving DecidableEq, Repr, Inhabited

namespace Shape

/-- The name of the shape. -/
def name : Shape → String
  | scan => "Scan"
  | noScan => "NoScan"

/-- The position of the shape within its size class. -/
def index : Shape → Fin 2
  | scan => 0
  | noScan => 1

end Shape

/-- One of the fourteen sizes of small cells. -/
structure SizeClass where
  /-- The position in the ascending list of sizes. -/
  index : Fin 14
deriving DecidableEq, Repr, Inhabited

namespace SizeClass

/-- The cell sizes in bytes, smallest first. -/
def sizes : Vector Nat 14 :=
  Vector.mk #[16, 32, 48, 64, 96, 128, 192, 256, 384, 512, 1024, 2048, 4096, 8192] rfl

/-- The bytes of a cell of the class. -/
def size (c : SizeClass) : Nat := sizes[c.index]

/-- Every class, smallest first. -/
def all : List SizeClass := (List.finRange 14).map .mk

/-- The class at a position of the list of sizes. -/
def ofIndex? (i : Nat) : Option SizeClass :=
  if h : i < 14 then some ⟨⟨i, h⟩⟩ else none

/-- The smallest class whose cells hold `n` bytes; a request for no bytes gets the smallest. -/
def forSize? (n : Nat) : Option SizeClass := all.find? (n ≤ ·.size)

/-- The greatest size of a small object. -/
def greatest : Nat := 8192

/-- The class as a record. -/
def describe (c : SizeClass) : String := "SizeClass(" ++ toString c.index.val ++ ")"

end SizeClass

/-- A size class with a pointer shape. -/
structure Span where
  /-- The size class of the cells. -/
  sizeClass : SizeClass
  /-- The shape of the objects. -/
  shape : Shape
deriving DecidableEq, Repr, Inhabited

namespace Span

/-- The bytes of a cell of the span. -/
def cellSize (s : Span) : Nat := s.sizeClass.size

/-- The position of the span among all twenty-eight. -/
def index (s : Span) : Fin 28 :=
  ⟨s.sizeClass.index.val * 2 + s.shape.index.val, by omega⟩

/-- Every span, in the order of `Span.index`. -/
def all : List Span :=
  SizeClass.all.flatMap fun c => [⟨c, .scan⟩, ⟨c, .noScan⟩]

theorem index_injective {s t : Span} (h : s.index = t.index) : s = t := by
  obtain ⟨⟨i⟩, a⟩ := s
  obtain ⟨⟨j⟩, b⟩ := t
  have h' : i.val * 2 + a.index.val = j.val * 2 + b.index.val := congrArg Fin.val h
  have hij : i = j := by
    apply Fin.ext
    have := a.index.isLt
    have := b.index.isLt
    omega
  subst hij
  have hab : a.index.val = b.index.val := by omega
  cases a <;> cases b <;> simp_all [Shape.index]

theorem index_surjective (i : Fin 28) : ∃ s : Span, s.index = i := by
  have hall : ∀ i : Fin 28, ∃ s ∈ all, s.index = i := by decide
  obtain ⟨s, -, hs⟩ := hall i
  exact ⟨s, hs⟩

end Span

/-- One value for every span. -/
structure SpanTable (α : Type) where
  /-- The values, at the positions of their spans. -/
  entries : Vector α 28

namespace SpanTable

variable {α : Type}

/-- The table with the same value for every span. -/
def fill (a : α) : SpanTable α := ⟨Vector.replicate 28 a⟩

/-- The value for a span. -/
def get (t : SpanTable α) (s : Span) : α := t.entries[s.index]

/-- Replaces the value for a span. -/
def set (t : SpanTable α) (s : Span) (a : α) : SpanTable α :=
  ⟨t.entries.set s.index.val a s.index.isLt⟩

/-- Changes the value for a span. -/
def modify (t : SpanTable α) (s : Span) (f : α → α) : SpanTable α := t.set s (f (t.get s))

/-- The values in the order of `Span.index`. -/
def toList (t : SpanTable α) : List α := t.entries.toList

@[simp] theorem get_fill (a : α) (s : Span) : (fill a).get s = a := by
  simp [fill, get]

@[simp] theorem get_set_self (t : SpanTable α) (s : Span) (a : α) : (t.set s a).get s = a := by
  simp [get, set]

theorem get_set_of_ne (t : SpanTable α) {s r : Span} (a : α) (h : r ≠ s) :
    (t.set s a).get r = t.get r := by
  have hne : s.index.val ≠ r.index.val := fun e => h (Span.index_injective (Fin.ext e.symm))
  simp [get, set, hne]

@[simp] theorem get_modify_self (t : SpanTable α) (s : Span) (f : α → α) :
    (t.modify s f).get s = f (t.get s) := by
  simp [modify]

theorem exists_get_of_mem_toList {t : SpanTable α} {a : α} (h : a ∈ t.toList) :
    ∃ s, t.get s = a := by
  obtain ⟨i, hi, rfl⟩ := Vector.mem_iff_getElem.1 (Vector.mem_toList_iff.1 h)
  obtain ⟨s, hs⟩ := Span.index_surjective ⟨i, hi⟩
  refine ⟨s, ?_⟩
  simp [get, hs]

theorem get_modify_of_ne (t : SpanTable α) {s r : Span} (f : α → α) (h : r ≠ s) :
    (t.modify s f).get r = t.get r :=
  get_set_of_ne t _ h

end SpanTable

end EagerHeap
