import EagerHeap.Size.Capacity
import Mathlib.Data.List.FinRange
/-!
# Reserved sizes

A request is rounded up to the smallest size class that holds it, or to whole blocks. So every request
between another one and the bytes that it occupies occupies the same bytes.

Main results: `le_reservedSize`, `exists_reservedSize` and `reservedSize_of_le`.
-/

namespace EagerHeap

namespace SizeClass

variable {n : Nat} {c d : SizeClass}

theorem le_size
    (hc : forSize? n = some c) :
    n ≤ c.size := by
  have hle := List.find?_some hc
  exact of_decide_eq_true hle

theorem mem_all (c : SizeClass) : c ∈ all :=
  List.mem_map.2 ⟨c.index, List.mem_finRange c.index, rfl⟩

/-- The class of a request is the smallest one that holds it. -/
theorem size_le_of_forSize
    (hc : forSize? n = some c)
    (hd : n ≤ d.size) :
    c.size ≤ d.size := by
  obtain ⟨-, front, back, hall, hfront⟩ := List.find?_eq_some_iff_append.1 hc
  have hsorted : all.Pairwise (·.size ≤ ·.size) := by decide
  rw [hall] at hsorted
  have hmem : d ∈ front ++ c :: back := hall ▸ mem_all d
  rcases List.mem_append.1 hmem with hbefore | hhere | ⟨_, hafter⟩
  · have hsmall := hfront d hbefore
    simp [hd] at hsmall
  · exact Nat.le_refl _
  · exact List.rel_of_pairwise_cons (List.pairwise_append.1 hsorted).2.1 hafter

/-- A request for few bytes has a size class. -/
theorem exists_forSize
    (hn : n ≤ greatest) :
    ∃ c, forSize? n = some c :=
  Option.isSome_iff_exists.1
    (List.find?_isSome.2 ⟨⟨13⟩, mem_all ⟨13⟩, decide_eq_true hn⟩)

/-- No small cell is smaller than the smallest size or larger than the greatest one. -/
theorem size_bounds (c : SizeClass) : 16 ≤ c.size ∧ c.size ≤ greatest := by
  have hall : ∀ i : Fin 14, 16 ≤ sizes[i] ∧ sizes[i] ≤ greatest := by decide
  exact hall c.index

end SizeClass

theorem Span.cellSize_bounds (s : Span) : 16 ≤ s.cellSize ∧ s.cellSize ≤ SizeClass.greatest :=
  s.sizeClass.size_bounds

theorem le_blocksFor (n : Nat) : n ≤ blocksFor n * blockSize := by
  simp only [blocksFor, blockSize]
  omega

theorem blocksFor_pos (n : Nat) : 0 < blocksFor (max n 1) := by
  simp only [blocksFor]
  omega

variable {n m bytes : Nat}

theorem le_reservedSize
    (hr : reservedSize n = .ok bytes) :
    n ≤ bytes := by
  rw [reservedSize] at hr
  split at hr
  · next c hc =>
      cases hr
      exact SizeClass.le_size hc
  · obtain ⟨-, rfl⟩ := Word.mul_eq_ok_iff.1 hr
    exact le_blocksFor n

/-- What is reserved is a machine word. -/
theorem reservedSize_lt
    (hr : reservedSize n = .ok bytes) :
    bytes < Word.bound := by
  rw [reservedSize] at hr
  split at hr
  · next c hc =>
      cases hr
      exact c.size_bounds.2.trans_lt (by decide)
  · obtain ⟨hlt, rfl⟩ := Word.mul_eq_ok_iff.1 hr
    exact hlt

/-- Space can be reserved for every buffer that has a size at all. -/
theorem exists_reservedSize
    (hn : n ≤ Word.signedGreatest) :
    ∃ bytes, reservedSize n = .ok bytes := by
  rw [reservedSize]
  split
  · exact ⟨_, rfl⟩
  · refine ⟨_, Word.mul_eq_ok_iff.2 ⟨?_, rfl⟩⟩
    simp only [Word.signedGreatest] at hn
    simp only [blocksFor, blockSize, Word.bound]
    omega

/-- Space can be reserved for all requests but those of the last block of the machine words. -/
theorem exists_reservedSize_iff :
    (∃ bytes, reservedSize n = .ok bytes) ↔ n ≤ Word.bound - blockSize := by
  rw [reservedSize]
  split
  · next c hc =>
      refine iff_of_true ⟨_, rfl⟩ ?_
      have hle := (SizeClass.le_size hc).trans c.size_bounds.2
      exact hle.trans (by decide)
  · have hfits : blocksFor n * blockSize < Word.bound ↔ n ≤ Word.bound - blockSize := by
      simp only [blocksFor, blockSize, Word.bound]
      omega
    rw [← hfits]
    exact ⟨fun ⟨bytes, hr⟩ => (Word.mul_eq_ok_iff.1 hr).1,
      fun hlt => ⟨_, Word.mul_eq_ok_iff.2 ⟨hlt, rfl⟩⟩⟩

/-- A request between another one and its reserved bytes reserves the same bytes. -/
theorem reservedSize_of_le
    (hr : reservedSize n = .ok bytes)
    (hle : n ≤ m)
    (hfits : m ≤ bytes) :
    reservedSize m = .ok bytes := by
  rw [reservedSize] at hr
  split at hr
  · next c hc =>
      cases hr
      obtain ⟨d, hd⟩ := SizeClass.exists_forSize (hfits.trans c.size_bounds.2)
      have hsame : d.size = c.size :=
        Nat.le_antisymm (SizeClass.size_le_of_forSize hd hfits)
          (SizeClass.size_le_of_forSize hc (hle.trans (SizeClass.le_size hd)))
      rw [reservedSize, hd, ← hsame]
  · next hnone =>
      have hlarge : SizeClass.forSize? m = none := by
        rw [Option.eq_none_iff_forall_ne_some]
        intro d hd
        obtain ⟨c, hc⟩ := SizeClass.exists_forSize
          (hle.trans ((SizeClass.le_size hd).trans d.size_bounds.2))
        cases hnone.symm.trans hc
      obtain ⟨hlt, rfl⟩ := Word.mul_eq_ok_iff.1 hr
      have hsame : blocksFor m = blocksFor n := by
        simp only [blocksFor, blockSize] at hfits ⊢
        omega
      rw [reservedSize, hlarge, hsame]
      exact hr

/-- What is reserved for a larger request is no less. -/
theorem reservedSize_mono
    {more : Nat}
    (hn : reservedSize n = .ok bytes)
    (hm : reservedSize m = .ok more)
    (hle : n ≤ m) :
    bytes ≤ more := by
  by_cases hfits : m ≤ bytes
  · exact (Except.ok.inj ((reservedSize_of_le hn hle hfits).symm.trans hm)).le
  · exact (Nat.le_of_not_le hfits).trans (le_reservedSize hm)

/-- The bytes that are reserved reserve themselves. -/
theorem reservedSize_reserved
    (hn : reservedSize n = .ok bytes) :
    reservedSize bytes = .ok bytes :=
  reservedSize_of_le hn (le_reservedSize hn) (Nat.le_refl bytes)

end EagerHeap
