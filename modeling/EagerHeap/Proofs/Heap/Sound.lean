import EagerHeap.Heap.Cycle
import EagerHeap.Heap.Scopes
import EagerHeap.Heap.Words
import EagerHeap.Heap.Workers
import EagerHeap.Proofs.Arena.Carving
import EagerHeap.Proofs.Arena.Colors
import EagerHeap.Proofs.Arena.Words
/-!
# Sound heaps

A heap is sound if its arena is laid out, if its workers and its lists of blocks name cells and
blocks of the right span only, and if the flag of an object says whether the table of side records
has an entry for it.
-/

namespace EagerHeap

/-- The entry names a small cell of the span by its block, its position and its address. -/
def FreeEntry.Fits (e : FreeEntry) (a : Arena) (s : Span) : Prop :=
  a.HasSpan e.block s ∧ e.cell < Block.cellsPer s ∧
    e.addr = Arena.blockBase e.block + e.cell * s.cellSize

/-- An entry that fits resolves to its cell. -/
theorem FreeEntry.Fits.cell?
    {e : FreeEntry} {a : Arena} {s : Span}
    (he : e.Fits a s)
    (hl : a.Layout) :
    ∃ hd, a.header? e.block e.cell = some hd ∧
      a.cell? e.addr =
        some { block := e.block, index := e.cell, addr := e.addr, size := s.cellSize,
               shape := s.shape, isLarge := false, header := hd } := by
  obtain ⟨hspan, hcell, haddr⟩ := he
  rw [haddr]
  exact hl.cell?_small hspan hcell

namespace Heap

/-- Free lists, cursors and the lists of offered blocks name cells and blocks of their span. -/
structure Stocked (h : Heap) : Prop where
  entries : ∀ w ∈ h.workers, ∀ s, ∀ e ∈ w.freeLists.get s, e.Fits h.arena s
  cursors : ∀ w ∈ h.workers, ∀ s c, w.cursors.get s = some c → h.arena.HasSpan c.block s
  central : ∀ s, ∀ i ∈ h.central.get s, h.arena.HasSpan i s

/-- A cell is flagged exactly if there are records for it, and then it holds an object. -/
structure Recorded (a : Arena) (t : AddressTable (List SideRecord)) : Prop where
  flagged : ∀ x c, a.cell? x = some c →
    (c.header.hasFlag Header.sideRecord = true ↔ (t.find? x).isSome = true)
  live : ∀ x l, t.find? x = some l → l ≠ [] ∧ a.isAllocated x = true

/-- The invariant of all heaps. -/
structure Sound (h : Heap) : Prop where
  layout : h.arena.Layout
  stocked : h.Stocked
  recorded : Recorded h.arena h.records.attached

variable {h h' : Heap} {a a' : Arena} {t : AddressTable (List SideRecord)} {x i : Nat} {c : Cell}
  {s : Span}

theorem Stocked.mono
    (hs : h.Stocked)
    (hspan : ∀ i s, h.arena.HasSpan i s → h'.arena.HasSpan i s)
    (hworkers : h'.workers = h.workers)
    (hcentral : h'.central = h.central) :
    h'.Stocked := by
  refine ⟨fun w hw s e he => ?_, fun w hw s c hc => ?_, fun s i hi => ?_⟩
  · obtain ⟨h₁, h₂, h₃⟩ := hs.entries w (hworkers ▸ hw) s e he
    exact ⟨hspan _ _ h₁, h₂, h₃⟩
  · exact hspan _ _ (hs.cursors w (hworkers ▸ hw) s c hc)
  · exact hspan _ _ (hs.central s i (hcentral ▸ hi))

/-! ### Records -/

theorem Recorded.not_flagged
    (hr : Recorded a t)
    (hx : a.cell? x = some c)
    (hf : c.header.hasFlag Header.sideRecord = false) :
    t.find? x = none := by
  have hiff := hr.flagged x c hx
  rw [hf] at hiff
  cases ht : t.find? x with
  | none => rfl
  | some l =>
      rw [ht] at hiff
      simp at hiff

theorem Recorded.find?_eq_none
    (hr : Recorded a t)
    (hx : a.isAllocated x = false) :
    t.find? x = none := by
  cases ht : t.find? x with
  | none => rfl
  | some l =>
      have := (hr.live x l ht).2
      rw [hx] at this
      cases this

/-- A change of cells keeps the agreement of flags and records if it neither flags a cell nor ends
a flagged object. -/
theorem Recorded.of_cells
    (hr : Recorded a t)
    (hflag : ∀ x c', a'.cell? x = some c' →
      (∃ c, a.cell? x = some c ∧ c'.header.flags = c.header.flags) ∨
        (c'.header.hasFlag Header.sideRecord = false ∧ t.find? x = none))
    (hlive : ∀ x l, t.find? x = some l → a'.isAllocated x = true) :
    Recorded a' t := by
  refine ⟨fun x c' hx => ?_, fun x l hl => ⟨(hr.live x l hl).1, hlive x l hl⟩⟩
  rcases hflag x c' hx with ⟨c, hc, hsame⟩ | ⟨hf, hnone⟩
  · rw [Header.hasFlag_congr hsame]
    exact hr.flagged x c hc
  · rw [hf, hnone]
    simp

end Heap

end EagerHeap
