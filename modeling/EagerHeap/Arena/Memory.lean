/-!
# The words of the arena

A `Memory` is seen through `Memory.read` alone: a word number has a value, and a word that was never
written, or was cleared since, is zero. The words are kept in pages that exist only once something
is written to them, so that a large empty arena costs nothing and whole pages are cleared at once.

Main statements: what a read gives after a write (`read_write_self`, `read_write_of_ne`), after
clearing (`read_clear`), and after a copy of bytes that ends inside a word (`read_writeLow_self`).
-/

namespace EagerHeap

/-- The contents of the arena, word by word. -/
structure Memory where
  /-- The pages; an absent or empty page holds zeros. -/
  pages : Array (Array Nat) := #[]

namespace Memory

/-- The words of a page. -/
def pageWords : Nat := 64

/-- The page that holds a word, possibly absent. -/
def page (m : Memory) (i : Nat) : Array Nat := m.pages[i / pageWords]?.getD #[]

/-- The value of word `i`. -/
def read (m : Memory) (i : Nat) : Nat := (m.page i)[i % pageWords]?.getD 0

/-- Makes room for page `p`. -/
def withPage (m : Memory) (p : Nat) : Memory :=
  if p < m.pages.size then m else ⟨m.pages ++ Array.replicate (p + 1 - m.pages.size) #[]⟩

/-- A page with room for all of its words. -/
def fullPage (words : Array Nat) : Array Nat :=
  if words.size = pageWords then words else words ++ Array.replicate (pageWords - words.size) 0

/-- Writes word `i`. -/
def write (m : Memory) (i v : Nat) : Memory :=
  ⟨(m.withPage (i / pageWords)).pages.modify (i / pageWords) fun words =>
    (fullPage words).setIfInBounds (i % pageWords) v⟩

/-- Clears word `i`. -/
def clearWord (m : Memory) (i : Nat) : Memory :=
  ⟨m.pages.modify (i / pageWords) fun words => words.setIfInBounds (i % pageWords) 0⟩

/-- Clears `n` words from word `i` on, one by one. -/
def clearWords (m : Memory) (i : Nat) : Nat → Memory
  | 0 => m
  | n + 1 => (m.clearWord i).clearWords (i + 1) n

/-- Clears `n` whole pages from page `p` on. -/
def clearPages (m : Memory) (p : Nat) : Nat → Memory
  | 0 => m
  | n + 1 => (Memory.mk (m.pages.setIfInBounds p #[])).clearPages (p + 1) n

/-- Clears `n` words from word `i` on. -/
def clear (m : Memory) (i n : Nat) : Memory :=
  if i % pageWords = 0 ∧ n % pageWords = 0 then m.clearPages (i / pageWords) (n / pageWords)
  else m.clearWords i n

/-- The number that the `k` low bytes of a word hold. -/
def lowBytes (k v : Nat) : Nat := v % Nat.pow 256 k

/-- Replaces the `k` low bytes of word `i` by those of `v`. -/
def writeLow (m : Memory) (i k v : Nat) : Memory :=
  m.write i (m.read i - lowBytes k (m.read i) + lowBytes k v)

/-- Folds `f` over the `n` words from word `i` on that are not zero, in their order. -/
def foldWords {β : Type} (m : Memory) (f : β → Nat → β) (i : Nat) : Nat → β → β
  | 0, b => b
  | n + 1, b =>
    let v := m.read i
    m.foldWords f (i + 1) n (if v = 0 then b else f b v)

/-- Folds `f` over the `n` words from word `i` on that are not zero, passing over empty pages; looks
at no more than `k` pages. -/
def foldPages {β : Type} (m : Memory) (f : β → Nat → β) : Nat → Nat → Nat → β → β
  | 0, _, _, b => b
  | k + 1, i, n, b =>
    let here := min n (pageWords - i % pageWords)
    m.foldPages f k (i + here) (n - here)
      (if (m.page i).isEmpty then b else m.foldWords f i here b)

/-- Folds `f` over the `n` words from word `i` on that are not zero, in their order. -/
def foldNonzero {β : Type} (m : Memory) (f : β → Nat → β) (i n : Nat) (b : β) : β :=
  m.foldPages f (n / pageWords + 2) i n b

/-! ### What a read gives -/

theorem read_of_page_eq {m m' : Memory} {i : Nat} (h : m'.page i = m.page i) :
    m'.read i = m.read i := by
  simp [read, h]

private theorem divMod_eq {i j : Nat} (hp : i / pageWords = j / pageWords)
    (hw : i % pageWords = j % pageWords) : i = j := by
  have hi := Nat.div_add_mod i pageWords
  have hj := Nat.div_add_mod j pageWords
  rw [hp, hw] at hi
  exact hi.symm.trans hj

theorem page_withPage (m : Memory) (p i : Nat) : (m.withPage p).page i = m.page i := by
  unfold withPage
  split
  · rfl
  · simp only [page, Array.getElem?_append]
    split
    · rfl
    · next h =>
      simp only [Array.getElem?_replicate]
      have : m.pages[i / pageWords]? = none := Array.getElem?_eq_none (Nat.le_of_not_lt h)
      split <;> simp [this]

theorem lt_size_withPage (m : Memory) (p : Nat) : p < (m.withPage p).pages.size := by
  unfold withPage
  split
  · assumption
  · simp only [Array.size_append, Array.size_replicate]
    omega

theorem getElem?_fullPage (words : Array Nat) (k : Nat) :
    (fullPage words)[k]?.getD 0 = words[k]?.getD 0 := by
  unfold fullPage
  split
  · rfl
  · simp only [Array.getElem?_append]
    split
    · rfl
    · next h =>
      simp only [Array.getElem?_replicate, Array.getElem?_eq_none (Nat.le_of_not_lt h)]
      split <;> rfl

theorem le_size_fullPage (words : Array Nat) : pageWords ≤ (fullPage words).size := by
  unfold fullPage
  split
  · omega
  · simp only [Array.size_append, Array.size_replicate]
    omega

@[simp] theorem read_write_self (m : Memory) (i v : Nat) : (m.write i v).read i = v := by
  have hp := m.lt_size_withPage (i / pageWords)
  have hlt : i % pageWords < pageWords := Nat.mod_lt _ (by decide)
  simp only [read, page, write, Array.getElem?_modify, Array.getElem?_eq_getElem hp]
  simp only [if_true, Option.map_some, Option.getD_some]
  rw [Array.getElem?_setIfInBounds_self_of_lt (Nat.lt_of_lt_of_le hlt (le_size_fullPage _))]
  rfl

theorem read_write_of_ne (m : Memory) {i j : Nat} (v : Nat) (h : j ≠ i) :
    (m.write i v).read j = m.read j := by
  have hpage := page_withPage m (i / pageWords) j
  by_cases hp : i / pageWords = j / pageWords
  · have hw : i % pageWords ≠ j % pageWords := fun e => h (divMod_eq hp e).symm
    have hlt := m.lt_size_withPage (i / pageWords)
    rw [← read_of_page_eq hpage]
    simp only [read, page, write, ← hp, Array.getElem?_modify, Array.getElem?_eq_getElem hlt]
    simp only [if_true, Option.map_some, Option.getD_some]
    rw [Array.getElem?_setIfInBounds_ne hw]
    exact getElem?_fullPage _ _
  · rw [← read_of_page_eq hpage]
    simp [read, page, write, Array.getElem?_modify, hp]

theorem read_clearWord (m : Memory) (i j : Nat) :
    (m.clearWord i).read j = if j = i then 0 else m.read j := by
  by_cases hp : i / pageWords = j / pageWords
  · simp only [read, page, clearWord, ← hp, Array.getElem?_modify, if_true]
    cases hm : m.pages[i / pageWords]? with
    | none => simp
    | some words =>
      simp only [Option.map_some, Option.getD_some, Array.getElem?_setIfInBounds]
      by_cases hw : i % pageWords = j % pageWords
      · have hij := divMod_eq hp hw
        subst hij
        by_cases hs : i % pageWords < words.size <;> simp [hs]
      · have hne : j ≠ i := fun e => hw (by rw [e])
        simp [hw, hne]
  · have hne : j ≠ i := fun e => hp (by rw [e])
    simp [read, page, clearWord, Array.getElem?_modify, hp, hne]

theorem read_clearWords (m : Memory) (i n j : Nat) :
    (m.clearWords i n).read j = if i ≤ j ∧ j < i + n then 0 else m.read j := by
  induction n generalizing m i with
  | zero =>
    rw [if_neg (by omega)]
    rfl
  | succ n ih =>
    rw [clearWords, ih, read_clearWord]
    by_cases hj : j = i
    · subst hj
      simp
    · by_cases hr : i + 1 ≤ j ∧ j < i + 1 + n
      · rw [if_pos hr, if_pos (by omega)]
      · rw [if_neg hr, if_neg hj, if_neg (by omega)]

theorem page_clearPages (m : Memory) (p n j : Nat) :
    (m.clearPages p n).page j =
      if p ≤ j / pageWords ∧ j / pageWords < p + n then #[] else m.page j := by
  induction n generalizing m p with
  | zero =>
    rw [if_neg (by omega)]
    rfl
  | succ n ih =>
    rw [clearPages, ih]
    by_cases hj : p = j / pageWords
    · rw [if_neg (by omega), if_pos (by omega)]
      simp only [page, hj, Array.getElem?_setIfInBounds, if_true]
      split <;> rfl
    · by_cases hr : p + 1 ≤ j / pageWords ∧ j / pageWords < p + 1 + n
      · rw [if_pos hr, if_pos (by omega)]
      · rw [if_neg hr, if_neg (by omega)]
        simp [page, Array.getElem?_setIfInBounds_ne hj]

/-- Clearing makes exactly the words of the range zero. -/
theorem read_clear (m : Memory) (i n j : Nat) :
    (m.clear i n).read j = if i ≤ j ∧ j < i + n then 0 else m.read j := by
  unfold clear
  split
  · next h =>
    have key : (i / pageWords ≤ j / pageWords ∧ j / pageWords < i / pageWords + n / pageWords) ↔
        (i ≤ j ∧ j < i + n) := by
      simp only [pageWords] at h ⊢
      omega
    simp only [read, page_clearPages, key]
    split <;> simp
  · exact m.read_clearWords i n j

/-- The low bytes of a word are replaced and its other bytes stay. -/
theorem read_writeLow_self (m : Memory) (i k v : Nat) :
    (m.writeLow i k v).read i = m.read i - lowBytes k (m.read i) + lowBytes k v := by
  simp [writeLow]

theorem read_writeLow_of_ne (m : Memory) {i j : Nat} (k v : Nat) (h : j ≠ i) :
    (m.writeLow i k v).read j = m.read j := by
  simp [writeLow, read_write_of_ne m _ h]

theorem foldWords_eq {β : Type} (m : Memory) (f : β → Nat → β) (i n : Nat) (b : β) :
    m.foldWords f i n b = (((List.range' i n).map m.read).filter (· ≠ 0)).foldl f b := by
  induction n generalizing i b with
  | zero => rfl
  | succ n ih =>
    rw [foldWords, ih, List.range'_succ, List.map_cons]
    by_cases hv : m.read i = 0 <;> simp [hv]

theorem read_of_isEmpty {m : Memory} {i j : Nat} (hempty : (m.page i).isEmpty)
    (hj : j / pageWords = i / pageWords) : m.read j = 0 := by
  have hpage : m.page j = m.page i := by simp [page, hj]
  simp [read, hpage, Array.isEmpty_iff.1 hempty]

theorem foldPages_eq {β : Type} (m : Memory) (f : β → Nat → β) {k i n : Nat} (b : β)
    (h : 0 < n → n + i % pageWords ≤ k * pageWords) :
    m.foldPages f k i n b = (((List.range' i n).map m.read).filter (· ≠ 0)).foldl f b := by
  induction k generalizing i n b with
  | zero =>
    have hn : n = 0 := by omega
    subst hn
    rfl
  | succ k ih =>
    simp only [foldPages]
    generalize hhere : min n (pageWords - i % pageWords) = here
    have hle : here ≤ n := by omega
    have hrest : 0 < n - here → n - here + (i + here) % pageWords ≤ k * pageWords := by
      simp only [pageWords] at h hhere ⊢
      omega
    have hsplit : List.range' i n = List.range' i here ++ List.range' (i + here) (n - here) := by
      rw [List.range'_append_1]
      congr 1
      omega
    rw [ih _ hrest, hsplit, List.map_append, List.filter_append, List.foldl_append]
    congr 1
    split
    · next hempty =>
      have hnone : ((List.range' i here).map m.read).filter (· ≠ 0) = [] := by
        rw [List.filter_eq_nil_iff]
        intro v hv
        obtain ⟨j, hj, rfl⟩ := List.mem_map.1 hv
        obtain ⟨h₁, h₂⟩ := List.mem_range'_1.1 hj
        have hsame : j / pageWords = i / pageWords := by
          simp only [pageWords] at hhere ⊢
          omega
        simp [read_of_isEmpty hempty hsame]
      rw [hnone]
      rfl
    · exact m.foldWords_eq f i here b

/-- The words that a fold visits are the ones of the range that are not zero. -/
theorem foldNonzero_eq {β : Type} (m : Memory) (f : β → Nat → β) (i n : Nat) (b : β) :
    m.foldNonzero f i n b = (((List.range' i n).map m.read).filter (· ≠ 0)).foldl f b := by
  apply foldPages_eq
  simp only [pageWords]
  omega

end Memory

end EagerHeap
