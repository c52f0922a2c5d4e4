import Mathlib.Algebra.GroupWithZero.Nat
import EagerHeap.Proofs.Heap.Births
/-!
# Bytes of objects

The words of an object hold its bytes, the lowest one first. A copy moves whole words, and the bytes
behind the last whole word one by one; into a new object it moves exactly the bytes that it is asked
for, whichever way it takes.

Main results: `word_copyBytes` and `readByte_copyBytes`.
-/

namespace EagerHeap

namespace Memory

/-- The bytes of a word of which the low ones were kept. -/
theorem byte_lowBytes (k r v : Nat) :
    lowBytes k v / 256 ^ r % 256 = if r < k then v / 256 ^ r % 256 else 0 := by
  change v % 256 ^ k / 256 ^ r % 256 = _
  split
  · next hlt =>
      have hsplit : 256 ^ k = 256 ^ r * 256 ^ (k - r) := by
        rw [← Nat.pow_add, Nat.add_sub_cancel' (Nat.le_of_lt hlt)]
      have hdvd : 256 ∣ 256 ^ (k - r) := by
        obtain ⟨d, rfl⟩ := Nat.exists_eq_add_of_lt hlt
        rw [Nat.add_assoc, Nat.add_sub_cancel_left, Nat.pow_succ]
        exact Nat.dvd_mul_left ..
      rw [hsplit, Nat.mod_mul_right_div_self, Nat.mod_mod_of_dvd _ hdvd]
  · next hge =>
      have hlt : v % 256 ^ k < 256 ^ r :=
        Nat.lt_of_lt_of_le (Nat.mod_lt _ (Nat.pow_pos (by decide)))
          (Nat.pow_le_pow_right (by decide) (Nat.le_of_not_lt hge))
      rw [Nat.div_eq_of_lt hlt]

end Memory

namespace Heap

variable {h g : Heap} {x y i j bytes : Nat} {c d : Cell} {sh : Shape}

/-- Byte `j` of the object at an address. -/
def readByte (h : Heap) (x j : Nat) : Nat :=
  h.readWord x (j / Word.bytes) / 256 ^ (j % Word.bytes) % 256

theorem readByte_of_words
    (hwords : ∀ i < c.size / Word.bytes, g.readWord x i = h.readWord x i)
    (hmod : c.size % Word.bytes = 0)
    (hj : j < c.size) :
    g.readByte x j = h.readByte x j := by
  have hlt : j / Word.bytes < c.size / Word.bytes := by
    simp only [Word.bytes] at hmod ⊢
    omega
  rw [readByte, readByte, hwords _ hlt]

/-- The words of an object of zeros after bytes of another object were copied into it. -/
theorem word_copyBytes
    (hl : h.arena.Layout)
    (hx : h.arena.cell? x = some c)
    (hy : h.arena.cell? y = some d)
    (hne : x ≠ y)
    (hc : bytes ≤ c.size)
    (hi : i < d.size / Word.bytes)
    (hzero : h.readWord y i = 0) :
    (h.copyBytes x y bytes sh).readWord y i =
      if i < bytes / Word.bytes then h.readWord x i
      else if i = bytes / Word.bytes then Memory.lowBytes (bytes % Word.bytes) (h.readWord x i)
      else 0 := by
  have hcopied : (h.copyBytes x y bytes sh).arena.Layout := by
    rw [arena_copyBytes]
    exact hl.copy x y bytes
  have hy' : (h.copyBytes x y bytes sh).arena.cell? y = some d := by
    rw [arena_copyBytes, Arena.cell?_copy, hy]
  rw [readWord_eq hl hy] at hzero
  rw [readWord_eq hcopied hy', readWord_eq hl hx, arena_copyBytes, Arena.read_copy, Arena.copied,
    hzero]
  by_cases hwhole : i < bytes / Word.bytes
  · rw [if_pos hwhole, if_pos hwhole]
  rw [if_neg hwhole, if_neg hwhole]
  by_cases hlast : i = bytes / Word.bytes
  · subst hlast
    rw [if_pos rfl]
    split
    · next hrest =>
        -- The last word of the source lies behind the words that were written before.
        have hsource : bytes / Word.bytes < c.size / Word.bytes := by
          have hmod := (hl.aligned hx).2
          simp only [Word.bytes] at hmod hrest ⊢
          omega
        have htail : h.arena.copiedTail x y bytes =
            h.arena.memory.read (Arena.wordIndex x + bytes / Word.bytes) := by
          rw [Arena.copiedTail, Arena.read_writeWords_words, if_neg]
          rintro ⟨hle, hlt⟩
          refine hl.word_ne hx hy hne hsource
            (j := Arena.wordIndex x + bytes / Word.bytes - Arena.wordIndex y) ?_ (by omega)
          omega
        rw [htail, Memory.lowBytes, Nat.zero_mod]
        exact Nat.zero_add _
    · next hnone =>
        have hzero : bytes % Word.bytes = 0 := by
          by_contra hrest
          exact hnone ⟨rfl, hrest⟩
        rw [hzero]
        exact (Nat.mod_one _).symm
  · rw [if_neg hlast, if_neg fun hand => hlast hand.1]

/-- An object of zeros has exactly the copied bytes after a copy. -/
theorem readByte_copyBytes
    (hl : h.arena.Layout)
    (hx : h.arena.cell? x = some c)
    (hy : h.arena.cell? y = some d)
    (hne : x ≠ y)
    (hc : bytes ≤ c.size)
    (hzeros : ∀ i < d.size / Word.bytes, h.readWord y i = 0)
    (hj : j < d.size) :
    (h.copyBytes x y bytes sh).readByte y j = if j < bytes then h.readByte x j else 0 := by
  have hi : j / Word.bytes < d.size / Word.bytes := by
    have hmod := (hl.aligned hy).2
    simp only [Word.bytes] at hmod ⊢
    omega
  rw [readByte, word_copyBytes hl hx hy hne hc hi (hzeros _ hi), readByte]
  by_cases hwhole : j / Word.bytes < bytes / Word.bytes
  · have hlt : j < bytes := by
      simp only [Word.bytes] at hwhole
      omega
    rw [if_pos hwhole, if_pos hlt]
  rw [if_neg hwhole]
  by_cases hlast : j / Word.bytes = bytes / Word.bytes
  · have hiff : j % Word.bytes < bytes % Word.bytes ↔ j < bytes := by
      simp only [Word.bytes] at hlast ⊢
      omega
    rw [if_pos hlast, Memory.byte_lowBytes]
    simp only [hiff]
  · have hge : ¬ j < bytes := by
      simp only [Word.bytes] at hwhole hlast
      omega
    rw [if_neg hlast, if_neg hge, Nat.zero_div]

end Heap

end EagerHeap
