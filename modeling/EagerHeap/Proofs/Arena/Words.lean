import EagerHeap.Proofs.Arena.Layout
/-!
# Words of cells

Cells start at whole words and hold whole words, so that two cells have no word in common. This
module says which words a write, a copy and the publication of an object change.

Main results: `Layout.word_ne` keeps the words of cells apart, `read_copy` gives the words after a
copy.
-/

namespace EagerHeap

namespace Arena

variable {a : Arena} {x y i j : Nat} {c d : Cell}

/-! ### The numbers of words -/

theorem wordIndex_add
    (hle : start ≤ x)
    (hmod : (x - start) % Word.bytes = 0)
    (i : Nat) :
    wordIndex (x + i * Word.bytes) = wordIndex x + i := by
  have hsub : x + i * Word.bytes - start = x - start + i * Word.bytes := by omega
  rw [wordIndex, wordIndex, hsub]
  simp only [Word.bytes] at *
  omega

theorem blockBase_mod (i : Nat) : (blockBase i - start) % Word.bytes = 0 := by
  have hsub : blockBase i - start = i * blockSize := by
    simp only [blockBase]
    omega
  rw [hsub]
  simp only [blockSize, Word.bytes]
  omega

namespace Layout

/-- A cell starts at a whole word and holds whole words. -/
theorem aligned
    (hl : a.Layout)
    (hx : a.cell? x = some c) :
    (x - start) % Word.bytes = 0 ∧ c.size % Word.bytes = 0 := by
  rcases hl.cell?_cases hx with
    ⟨s, -, -, hxa, hsize, -⟩ | ⟨n, sh, -, -, -, hxa, hsize, -⟩
  · have hcell := s.cellSize_mod
    have hbase := blockBase_mod c.block
    have hmul : c.index * s.cellSize % Word.bytes = 0 := by
      rw [Nat.mul_mod, hcell, Nat.mul_zero, Nat.zero_mod]
    have hsub : x - start = blockBase c.block - start + c.index * s.cellSize := by
      have hle : start ≤ blockBase c.block := Nat.le_add_right ..
      omega
    refine ⟨?_, hsize ▸ hcell⟩
    rw [hsub, Nat.add_mod, hbase, hmul]
    rfl
  · rw [hxa, hsize]
    refine ⟨blockBase_mod _, ?_⟩
    rw [Nat.mul_mod, show blockSize % Word.bytes = 0 from rfl, Nat.mul_zero, Nat.zero_mod]

theorem start_le
    (hx : a.cell? x = some c) :
    start ≤ x :=
  start_le_of_contains (contains_of_cell? hx)

/-- Word `i` of a cell, by its number. -/
theorem wordIndex_word
    (hl : a.Layout)
    (hx : a.cell? x = some c)
    (i : Nat) :
    wordIndex (x + i * Word.bytes) = wordIndex x + i :=
  wordIndex_add (start_le hx) (hl.aligned hx).1 i

/-- Two cells have no word in common. -/
theorem word_ne
    (hl : a.Layout)
    (hx : a.cell? x = some c)
    (hy : a.cell? y = some d)
    (hne : x ≠ y)
    (hi : i < c.size / Word.bytes)
    (hj : j < d.size / Word.bytes) :
    wordIndex x + i ≠ wordIndex y + j := by
  have hx' := start_le hx
  have hy' := start_le hy
  have hxm := (hl.aligned hx).1
  have hym := (hl.aligned hy).1
  have hdis := hl.disjoint hx hy hne
  simp only [wordIndex, Word.bytes] at *
  omega

end Layout

/-! ### What a read gives -/

@[simp] theorem read_withMemory (a : Arena) (f : Memory → Memory) (x : Nat) :
    (a.withMemory f).read x = (f a.memory).read (wordIndex x) := rfl

/-- Writing several words gives them from the first address on. -/
theorem read_foldl_write
    (vs : List Nat) (m : Memory) (first k : Nat) :
    (vs.foldl (fun (m, i) v => (m.write i v, i + 1)) (m, first)).1.read k =
      if first ≤ k ∧ k < first + vs.length then vs[k - first]?.getD 0 else m.read k := by
  induction vs generalizing m first with
  | nil =>
      rw [if_neg (by simp only [List.length_nil]; omega)]
      rfl
  | cons v vs ih =>
      rw [List.foldl_cons, ih]
      simp only [List.length_cons]
      by_cases hk : k = first
      · subst hk
        rw [if_neg (by omega), if_pos (by omega), Memory.read_write_self, Nat.sub_self]
        rfl
      · rw [Memory.read_write_of_ne _ _ hk]
        by_cases hin : first + 1 ≤ k ∧ k < first + 1 + vs.length
        · have hsucc : k - first = k - (first + 1) + 1 := by omega
          rw [if_pos hin, if_pos (by omega), hsucc]
          rfl
        · rw [if_neg hin, if_neg (by omega)]

/-- The bytes behind the whole words of a copy, as the copy finds them. -/
def copiedTail (a : Arena) (source target bytes : Nat) : Nat :=
  (a.writeWords target (a.words source (bytes / Word.bytes))).memory.read
    (wordIndex source + bytes / Word.bytes)

/-- The value that a copy gives to word `i` of its target, which had the value `old`. -/
def copied (a : Arena) (source target bytes i old : Nat) : Nat :=
  if i < bytes / Word.bytes then a.memory.read (wordIndex source + i)
  else if i = bytes / Word.bytes ∧ bytes % Word.bytes ≠ 0 then
    old - Memory.lowBytes (bytes % Word.bytes) old +
      Memory.lowBytes (bytes % Word.bytes) (a.copiedTail source target bytes)
  else old

theorem read_foldl_copy
    (m : Memory) (source target n k : Nat) :
    (((List.range' source n).map m.read).foldl (fun (m, i) v => (m.write i v, i + 1))
        (m, target)).1.read k =
      if target ≤ k ∧ k < target + n then m.read (source + (k - target)) else m.read k := by
  have hword : ∀ j, j < n →
      ((List.range' source n).map m.read)[j]?.getD 0 = m.read (source + j) := by
    intro j hj
    rw [List.getElem?_map, List.getElem?_range' hj, Nat.one_mul]
    rfl
  rw [read_foldl_write, List.length_map, List.length_range']
  split
  · next hk => exact hword _ (by omega)
  · rfl

theorem read_writeWords_words
    (a : Arena) (source target n k : Nat) :
    (a.writeWords target (a.words source n)).memory.read k =
      if wordIndex target ≤ k ∧ k < wordIndex target + n then
        a.memory.read (wordIndex source + (k - wordIndex target))
      else a.memory.read k :=
  read_foldl_copy a.memory (wordIndex source) (wordIndex target) n k

/-- A copy changes the words of its target only. -/
theorem read_copy_of_lt
    (a : Arena) (source target bytes : Nat) {k : Nat}
    (hk : k < wordIndex target ∨ wordIndex target + (bytes + 7) / Word.bytes ≤ k) :
    (a.copy source target bytes).memory.read k = a.memory.read k := by
  have hwords := read_writeWords_words a source target (bytes / Word.bytes) k
  have hout : ¬ (wordIndex target ≤ k ∧ k < wordIndex target + bytes / Word.bytes) := by
    simp only [Word.bytes] at hk ⊢
    omega
  rw [if_neg hout] at hwords
  unfold copy
  simp only
  split
  · exact hwords
  · next hrest =>
      have hne : k ≠ wordIndex target + bytes / Word.bytes := by
        simp only [Word.bytes] at hk hrest ⊢
        omega
      exact (Memory.read_writeLow_of_ne _ _ _ hne).trans hwords

/-- The words of the target of a copy. -/
theorem read_copy
    (a : Arena) (source target bytes i : Nat) :
    (a.copy source target bytes).memory.read (wordIndex target + i) =
      a.copied source target bytes i (a.memory.read (wordIndex target + i)) := by
  have hwords := read_writeWords_words a source target (bytes / Word.bytes) (wordIndex target + i)
  have hsub : wordIndex target + i - wordIndex target = i := by omega
  rw [hsub] at hwords
  unfold copy copied
  by_cases hi : i < bytes / Word.bytes
  · rw [if_pos (by omega)] at hwords
    rw [if_pos hi]
    simp only
    split
    · exact hwords
    · exact (Memory.read_writeLow_of_ne _ _ _ (by omega)).trans hwords
  · rw [if_neg (by omega)] at hwords
    rw [if_neg hi]
    simp only
    by_cases hrest : bytes % Word.bytes = 0
    · rw [if_pos hrest, if_neg (fun hc => hc.2 hrest)]
      exact hwords
    · rw [if_neg hrest]
      by_cases hlast : i = bytes / Word.bytes
      · rw [if_pos ⟨hlast, hrest⟩]
        subst hlast
        refine (Memory.read_writeLow_self _ _ _ _).trans ?_
        rw [hwords]
        rfl
      · rw [if_neg (fun hc => hlast hc.1)]
        exact (Memory.read_writeLow_of_ne _ _ _ (by omega)).trans hwords

@[simp] theorem cell?_copy (a : Arena) (source target bytes x : Nat) :
    (a.copy source target bytes).cell? x = a.cell? x := by
  unfold copy writeWords
  simp only
  split <;> simp

theorem Layout.copy
    (hl : a.Layout)
    (source target bytes : Nat) :
    (a.copy source target bytes).Layout := by
  unfold Arena.copy writeWords
  simp only
  split
  · exact hl.withMemory _
  · exact (hl.withMemory _).withMemory _

theorem sameOutline_copy (a : Arena) (source target bytes : Nat) :
    SameOutline a (a.copy source target bytes) := by
  unfold copy writeWords
  simp only
  split
  · exact sameOutline_withMemory ..
  · exact (sameOutline_withMemory ..).trans (sameOutline_withMemory ..)

end Arena

end EagerHeap
