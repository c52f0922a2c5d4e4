import EagerHeap.Proofs.Arena.Objects
import EagerHeap.Proofs.Heap.Frees
import EagerHeap.Proofs.Marking.Tricolor
/-!
# Sweeping as a sequence of visits

Sweeping visits every cell of the blocks that it sweeps. A visit spares the cell, keeps an unreached
object because of a finalizer, or frees an unreached object, whose cleanups are queued first.

Main results: `Visits.steps` and `Visits.outline`.
-/

namespace EagerHeap

namespace Heap

/-- What sweeping does at the address of a cell; the list holds the cell if it is freed. -/
inductive Visit (h : Heap) (x : Nat) : List Cell → Heap → Prop
  | spare (hx : ∀ c, h.arena.Object x c → c.header.color ≠ .white) : Visit h x [] h
  | keep {c : Cell} (ho : h.arena.Object x c) (hw : c.header.color = .white)
      (hf : h.records.hasFinalizer x = true) : Visit h x [] (h.resurrect x)
  | free {c : Cell} {h' : Heap} (ho : h.arena.Object x c) (hw : c.header.color = .white)
      (hf : c.header.hasFlag Header.sideRecord = false) (ht : Tick h (.reclaim x) h') :
      Visit h x [c] h'
  | cleanup {c : Cell} {h' : Heap} (ho : h.arena.Object x c) (hw : c.header.color = .white)
      (hf : h.records.hasFinalizer x = false)
      (ht : Tick
        { h with
          records := h.records.queueCleanups x
          arena := h.arena.modifyHeaderAt x (·.clearFlag Header.sideRecord) } (.reclaim x) h') :
      Visit h x [c] h'

/-- Visits of several addresses one after the other; in between blocks are offered to all workers. -/
inductive Visits : Heap → List Nat → List Cell → Heap → Prop
  | nil (h : Heap) : Visits h [] [] h
  | visit {h g h' : Heap} {x : Nat} {xs : List Nat} {cs ds : List Cell} (hv : Visit h x cs g)
      (hrest : Visits g xs ds h') : Visits h (x :: xs) (cs ++ ds) h'
  | offer {h h' : Heap} {xs : List Nat} {cs : List Cell} (b : Nat) (hst : Still h (h.offer b))
      (hrest : Visits (h.offer b) xs cs h') : Visits h xs cs h'

/-- What visits of the given addresses consist of. -/
def SweepsAmong (xs : List Nat) (l : Act) : Prop :=
  l = .still ∨ ∃ x ∈ xs, l = .finalize x ∨ l = .cleanup x ∨ l = .reclaim x

variable {h g h' : Heap} {x b i n : Nat} {xs ys : List Nat} {c : Cell} {cs ds : List Cell}
  {s : Span}

theorem SweepsAmong.mono
    {l : Act}
    (hl : SweepsAmong xs l)
    (hxy : ∀ x ∈ xs, x ∈ ys) :
    SweepsAmong ys l := by
  rcases hl with rfl | ⟨x, hx, hl⟩
  · exact Or.inl rfl
  · exact Or.inr ⟨x, hxy x hx, hl⟩

theorem Visit.steps
    (hv : Visit h x cs g) :
    Steps (SweepsAmong [x]) h g := by
  have hmem : x ∈ [x] := List.mem_singleton_self x
  cases hv with
  | spare => exact Steps.refl h
  | keep ho hw hf => exact Steps.single (Or.inr ⟨x, hmem, Or.inl rfl⟩) (.finalize x)
  | free ho hw hf ht => exact Steps.single (Or.inr ⟨x, hmem, Or.inr (Or.inr rfl)⟩) ht
  | cleanup ho hw hf ht =>
      exact (Steps.single (Or.inr ⟨x, hmem, Or.inr (Or.inl rfl)⟩) (.cleanup hf)).trans
        (Steps.single (Or.inr ⟨x, hmem, Or.inr (Or.inr rfl)⟩) ht)

theorem Visits.steps
    (hv : Visits h xs cs h') :
    Steps (SweepsAmong xs) h h' := by
  induction hv with
  | nil h => exact Steps.refl h
  | visit hv _ ih =>
      refine (hv.steps.mono fun l hl => hl.mono ?_).trans (ih.mono fun l hl => hl.mono ?_)
      · intro y hy
        rw [List.mem_singleton.1 hy]
        exact List.mem_cons_self ..
      · exact fun y hy => List.mem_cons_of_mem _ hy
  | offer b hst _ ih => exact (hst.steps.mono fun l hl => Or.inl hl).trans ih

theorem Visits.append
    (hxs : Visits h xs cs g)
    (hys : Visits g ys ds h') :
    Visits h (xs ++ ys) (cs ++ ds) h' := by
  induction hxs with
  | nil => exact hys
  | visit hv _ ih =>
      rw [List.cons_append, List.append_assoc]
      exact .visit hv (ih hys)
  | offer b hst _ ih => exact .offer b hst (ih hys)

/-! ### Visits and blocks -/

/-- A freed object concerns its own block only. -/
theorem Tick.outline_reclaim
    (ht : Tick h (.reclaim x) g)
    (hj : (x - Arena.start) / blockSize ≠ i) :
    g.arena.outline? i = h.arena.outline? i := by
  generalize hl : Act.reclaim x = l at ht
  cases ht with
  | reclaimCell hx hu hf hsmall => exact (Arena.sameOutline_modifyHeader ..).outline? i
  | @reclaimRun j n hd sh hb hn hu hf =>
      cases hl
      rw [Arena.block_of_base] at hj
      obtain ⟨-, hother⟩ := Arena.close_blocks hb
      unfold Arena.outline?
      rw [hother i (fun e => hj e.symm)]
  | _ => cases hl

theorem sameOutline_resurrect (h : Heap) (x : Nat) :
    Arena.SameOutline h.arena (h.resurrect x).arena := by
  rw [arena_resurrect]
  split
  · exact Arena.sameOutline_modifyHeaderAt ..
  · exact Arena.SameOutline.refl _

theorem Visit.outline
    (hv : Visit h x cs g)
    (hj : (x - Arena.start) / blockSize ≠ i) :
    g.arena.outline? i = h.arena.outline? i := by
  cases hv with
  | spare => rfl
  | keep => exact (sameOutline_resurrect h x).outline? i
  | free ho hw hf ht => exact ht.outline_reclaim hj
  | cleanup ho hw hf ht =>
      refine (ht.outline_reclaim hj).trans ?_
      exact (Arena.sameOutline_modifyHeaderAt ..).outline? i

theorem Visits.outline
    (hv : Visits h xs cs h')
    (hj : ∀ x ∈ xs, (x - Arena.start) / blockSize ≠ i) :
    h'.arena.outline? i = h.arena.outline? i := by
  induction hv with
  | nil => rfl
  | visit hv _ ih =>
      exact (ih fun y hy => hj y (List.mem_cons_of_mem _ hy)).trans
        (hv.outline (hj _ (List.mem_cons_self ..)))
  | offer b hst _ ih => exact (ih hj).trans (hst.outline.outline? i)

end Heap

end EagerHeap
