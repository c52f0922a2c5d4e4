import EagerHeap.Proofs.Heap.Frames
/-!
# Words of objects and sequences of changes

An elementary change writes the words of one object at most, and a new object starts with zeros.
`Steps` are sequences of elementary changes of given kinds; what the single changes preserve they
preserve as well.

Main results: `Tick.read`, `Tick.zeros`, `Steps.sound` and `Steps.stays`.
-/

namespace EagerHeap

/-- The value of word `i` of an object after an elementary change of a heap, if the object stays and
the word had the value `old`. -/
def Act.overwrite (h : Heap) (x i old : Nat) : Act → Nat
  | .store y j v => if y = x ∧ j = i then v else old
  | .copy source target bytes _ =>
      if target = x then h.arena.copied source target bytes i old else old
  | _ => old

namespace Heap

variable {h h' h'' : Heap} {l : Act} {x y i : Nat} {c d : Cell}

/-! ### Words -/

/-- Word `i` of the object at an address, as memory has it. -/
theorem readWord_eq
    (hl : h.arena.Layout)
    (hx : h.arena.cell? x = some c)
    (i : Nat) :
    h.readWord x i = h.arena.memory.read (Arena.wordIndex x + i) := by
  rw [readWord, Arena.read, hl.wordIndex_word hx]

/-- Clearing the words of one cell leaves those of another one alone. -/
theorem read_clear_of_ne
    {a : Arena}
    (hl : a.Layout)
    (hx : a.cell? x = some c)
    (hy : a.cell? y = some d)
    (hne : x ≠ y)
    (hi : i < c.size / Word.bytes)
    (m : Memory) :
    (m.clear (Arena.wordIndex y) (d.size / Word.bytes)).read (Arena.wordIndex x + i) =
      m.read (Arena.wordIndex x + i) := by
  rw [Memory.read_clear, if_neg]
  rintro ⟨hle, hlt⟩
  have hword := hl.word_ne hx hy hne hi
    (j := Arena.wordIndex x + i - Arena.wordIndex y) (by omega)
  omega

theorem memory_publish (h : Heap) (b k addr size : Nat) :
    (h.publish b k addr size).arena.memory =
      h.arena.memory.clear (Arena.wordIndex addr) (size / Word.bytes) := by
  unfold publish Arena.publish Arena.modifyHeader Arena.modifyBlock Arena.withMemory
  rfl

theorem memory_writeWord (h : Heap) (x i v : Nat) :
    (h.writeWord x i v).arena.memory =
      h.arena.memory.write (Arena.wordIndex (x + i * Word.bytes)) v := by
  rw [arena_writeWord]
  unfold Arena.write Arena.withMemory
  rfl

theorem memory_attachRecord (h : Heap) (x : Nat) (kind : RecordKind) :
    (h.attachRecord x kind).2.arena.memory = h.arena.memory := by
  unfold attachRecord
  split
  · unfold Arena.modifyHeaderAt
    simp only
    split <;> rfl
  · rfl

theorem memory_modifyHeaderAt (a : Arena) (x : Nat) (f : Header → Header) :
    (a.modifyHeaderAt x f).memory = a.memory := by
  unfold Arena.modifyHeaderAt
  split <;> rfl

theorem memory_resurrect (h : Heap) (x : Nat) :
    (h.resurrect x).arena.memory = h.arena.memory := by
  rw [arena_resurrect]
  split
  · exact memory_modifyHeaderAt _ _ _
  · rfl

theorem memory_begin (h : Heap) : h.resetCycle.nextPhase.2.arena.memory = h.arena.memory := by
  unfold nextPhase resetCycle modifyCollector Arena.resetColors
  rfl

/-- An elementary change writes the words that it says, and no others, of the objects that stay. -/
theorem Tick.read
    (hs : h.Sound)
    (ht : Tick h l h')
    (hx : h.arena.cell? x = some c)
    (hst : c.header.state = .allocated)
    (hi : i < c.size / Word.bytes) :
    h'.arena.memory.read (Arena.wordIndex x + i) =
      l.overwrite h x i (h.arena.memory.read (Arena.wordIndex x + i)) := by
  cases ht with
  | still hq =>
      change _ = h.arena.memory.read _
      rw [hq.memory]
  | carve hc =>
      change _ = h.arena.memory.read _
      rw [(hs.layout.carveBlock hc).2.1]
  | @birthCell y d hy hne =>
      change _ = h.arena.memory.read _
      rw [memory_publish]
      refine read_clear_of_ne hs.layout hx hy ?_ hi _
      rintro rfl
      rw [hx] at hy
      obtain rfl := Option.some.inj hy
      exact hne hst
  | @birthRun n j a' sh hn hc =>
      -- The new run is a cell of the arena after the change only.
      have ht : Tick h _ _ := Tick.birthRun sh hn hc
      have hl' := ht.layout hs
      have htaken := hs.layout.runTaken hn hc
      obtain ⟨hself, hother⟩ := htaken.open_blocks hn sh (Arena.blockBase j) (n * blockSize)
        h.phase.allocationColor
      obtain ⟨hnone, hcells⟩ := hs.layout.cell?_openRun hl' hn htaken rfl hself hother
      have hne : x ≠ Arena.blockBase j := by
        rintro rfl
        rw [hnone] at hx
        cases hx
      have hx' := (hcells x).trans (if_neg hne)
      have hnew := (hcells (Arena.blockBase j)).trans (if_pos rfl)
      change _ = h.arena.memory.read _
      rw [memory_publish]
      refine (read_clear_of_ne hl' (hx'.trans hx) hnew hne hi _).trans ?_
      have hmem : (a'.modifyBlock j (Block.withRun n sh)).memory = h.arena.memory := htaken.memory
      exact congrArg (fun m : Memory => m.read (Arena.wordIndex x + i)) hmem
  | @store y j d v hy hsy hj =>
      rw [memory_writeWord, hs.layout.wordIndex_word hy, Act.overwrite]
      by_cases hyx : y = x
      · subst hyx
        by_cases hji : j = i
        · subst hji
          rw [Memory.read_write_self, if_pos ⟨rfl, rfl⟩]
        · rw [Memory.read_write_of_ne _ _ (by omega), if_neg (fun hc => hji hc.2)]
      · have hne := hs.layout.word_ne hx hy (fun e => hyx e.symm) hi hj
        rw [Memory.read_write_of_ne _ _ hne, if_neg (fun hc => hyx hc.1)]
  | @copy target bytes d source hy hsy hb =>
      rw [arena_copyBytes, Act.overwrite]
      by_cases hyx : target = x
      · subst hyx
        rw [if_pos rfl, Arena.read_copy]
      · rw [if_neg hyx]
        refine Arena.read_copy_of_lt _ _ _ _ ?_
        have hmod := (hs.layout.aligned hy).2
        have hwords : (bytes + 7) / Word.bytes ≤ d.size / Word.bytes := by
          simp only [Word.bytes] at hmod ⊢
          omega
        refine Decidable.or_iff_not_imp_left.2 fun hlt => Nat.le_of_not_lt fun hin => ?_
        have hword := hs.layout.word_ne hx hy (fun e => hyx e.symm) hi
          (j := Arena.wordIndex x + i - Arena.wordIndex target) (by omega)
        omega
  | attach kind hy =>
      change _ = h.arena.memory.read _
      rw [memory_attachRecord]
  | finalize y =>
      change _ = h.arena.memory.read _
      rw [memory_resurrect]
  | cleanup hf =>
      change _ = h.arena.memory.read _
      rw [memory_modifyHeaderAt]
  | paint b col hp =>
      change _ = h.arena.memory.read _
      rw [hp.memory]
  | begin =>
      change _ = h.arena.memory.read _
      rw [memory_begin]
  | _ => rfl

/-- A new object starts with zeros. -/
theorem Tick.zeros
    (hs : h.Sound)
    (ht : Tick h (.birth x) h')
    (hx : h'.arena.cell? x = some c)
    (hi : i < c.size / Word.bytes) :
    h'.arena.memory.read (Arena.wordIndex x + i) = 0 := by
  generalize hl : Act.birth x = l at ht
  cases ht with
  | @birthCell y d hy hne =>
      cases hl
      have hchange := Arena.cellChange_publish (p := h.phase) hy hne x
      have hsize : c.size = d.size := by
        rw [hy] at hchange
        rw [show (h.arena.publish d.block d.index x d.size h.phase.allocationColor).cell? x = some c
          from hx] at hchange
        cases hchange with
        | kept hc => rfl
      rw [hsize] at hi
      rw [memory_publish, Memory.read_clear, if_pos (by omega)]
  | @birthRun n j a' sh hn hc =>
      cases hl
      have ht : Tick h _ _ := Tick.birthRun sh hn hc
      have htaken := hs.layout.runTaken hn hc
      obtain ⟨hself, hother⟩ := htaken.open_blocks hn sh (Arena.blockBase j) (n * blockSize)
        h.phase.allocationColor
      obtain ⟨-, hcells⟩ := hs.layout.cell?_openRun (ht.layout hs) hn htaken rfl hself hother
      have hsize : c.size = n * blockSize := by
        have hnew := (hcells (Arena.blockBase j)).trans (if_pos rfl)
        have heq := Option.some.inj (hx.symm.trans hnew)
        rw [heq]
      rw [hsize] at hi
      rw [memory_publish, Memory.read_clear, if_pos (by omega)]
  | _ => cases hl

/-! ### Sequences of changes -/

/-- A sequence of elementary changes of the given kinds. -/
def Steps (P : Act → Prop) : Heap → Heap → Prop :=
  Relation.ReflTransGen fun h h' => ∃ l, P l ∧ Tick h l h'

section Steps

variable {P Q : Act → Prop}

theorem Steps.refl (h : Heap) : Steps P h h := Relation.ReflTransGen.refl

theorem Steps.single (hP : P l) (ht : Tick h l h') : Steps P h h' :=
  Relation.ReflTransGen.single ⟨l, hP, ht⟩

theorem Steps.trans (h₁ : Steps P h h') (h₂ : Steps P h' h'') : Steps P h h'' :=
  Relation.ReflTransGen.trans h₁ h₂

theorem Steps.mono (hs : Steps P h h') (hPQ : ∀ l, P l → Q l) : Steps Q h h' :=
  Relation.ReflTransGen.mono (fun _ _ ⟨l, hP, ht⟩ => ⟨l, hPQ l hP, ht⟩) _ _ hs

/-- What every change preserves that starts from a sound heap, a sequence of changes preserves. -/
theorem Steps.induct
    {R : Heap → Prop}
    (hsteps : Steps P h h')
    (hs : h.Sound)
    (hR : R h)
    (hstep : ∀ g l g', g.Sound → R g → P l → Tick g l g' → R g') :
    h'.Sound ∧ R h' := by
  induction hsteps with
  | refl => exact ⟨hs, hR⟩
  | tail _ hlast ih =>
      obtain ⟨l, hP, ht⟩ := hlast
      exact ⟨ht.sound ih.1, hstep _ l _ ih.1 ih.2 hP ht⟩

theorem Steps.sound (hsteps : Steps P h h') (hs : h.Sound) : h'.Sound :=
  (hsteps.induct (R := fun _ => True) hs trivial fun _ _ _ _ _ _ _ => trivial).1

theorem Steps.sameCycle
    (hsteps : Steps P h h')
    (hP : ∀ l, P l → ¬ l.OfCycle) :
    SameCycle h h' := by
  induction hsteps with
  | refl => exact SameCycle.refl h
  | tail _ hlast ih =>
      obtain ⟨l, hl, ht⟩ := hlast
      exact ih.trans (ht.sameCycle (hP l hl))

theorem Steps.phase
    (hsteps : Steps P h h')
    (hbegin : ¬ P .begin)
    (hturn : ¬ P .turn) :
    h'.phase = h.phase := by
  induction hsteps with
  | refl => rfl
  | tail _ hlast ih =>
      obtain ⟨l, hl, ht⟩ := hlast
      exact (ht.phase (fun e => hbegin (e ▸ hl)) fun e => hturn (e ▸ hl)).trans ih

theorem Steps.config (hsteps : Steps P h h') : h'.config = h.config := by
  induction hsteps with
  | refl => rfl
  | tail _ hlast ih =>
      obtain ⟨l, -, ht⟩ := hlast
      exact ht.config.trans ih

theorem Steps.limit
    (hsteps : Steps P h h')
    (hs : h.Sound) :
    h'.arena.pages.limit = h.arena.pages.limit :=
  (hsteps.induct (R := fun f => f.arena.pages.limit = h.arena.pages.limit) hs rfl
    fun _ _ _ hf hR _ ht => (ht.limit hf).trans hR).2

/-- The bounds of the arena never change. -/
theorem Steps.contains
    (hsteps : Steps P h h')
    (hs : h.Sound)
    (x : Nat) :
    h'.arena.contains x = h.arena.contains x := by
  rw [Arena.contains, Arena.contains, Arena.stop, Arena.stop, hsteps.limit hs]

theorem Steps.hasSpan
    {s : Span}
    (hsteps : Steps P h h')
    (hs : h.Sound)
    (hspan : h.arena.HasSpan i s) :
    h'.arena.HasSpan i s :=
  (hsteps.induct (R := fun g => g.arena.HasSpan i s) hs hspan
    fun _ _ _ hg hR _ ht => ht.hasSpan hg hR).2

theorem Steps.hasRun
    (hsteps : Steps P h h')
    (hs : h.Sound)
    (hr : ∃ n, h.arena.HasRun i n) :
    ∃ n, h'.arena.HasRun i n :=
  (hsteps.induct (R := fun g => ∃ n, g.arena.HasRun i n) hs hr
    fun _ _ _ hg hR _ ht => ht.hasRun hg hR).2

/-- An object stays through changes none of which frees it. -/
theorem Steps.stays
    (hsteps : Steps P h h')
    (hs : h.Sound)
    (hx : h.arena.cell? x = some c)
    (hst : c.header.state = .allocated)
    (hpark : ¬ P (.park x))
    (hreclaim : ¬ P (.reclaim x)) :
    ∃ hd, h'.arena.cell? x = some { c with header := hd } ∧ hd.state = .allocated := by
  refine (hsteps.induct (R := fun g => ∃ hd, g.arena.cell? x = some { c with header := hd } ∧
    hd.state = .allocated) hs ⟨c.header, hx, hst⟩ ?_).2
  rintro g l g' hg ⟨hd, hcell, hal⟩ hP ht
  have hchange := ht.cellChange hg x
  rw [hcell] at hchange
  obtain ⟨hd', hcell', hal', -⟩ := hchange.stays hal
    (fun e => hpark (e ▸ hP)) (fun e => absurd (e ▸ hP) hreclaim)
  exact ⟨hd', hcell', hal'⟩

/-- A reached object stays and stays reached through changes that neither free it eagerly nor begin
a cycle: the collector frees unreached objects only. -/
theorem Steps.stays_reached
    (hsteps : Steps P h h')
    (hs : h.Sound)
    (hx : h.arena.cell? x = some c)
    (hst : c.header.state = .allocated)
    (hcol : c.header.color ≠ .white)
    (hpark : ¬ P (.park x))
    (hbegin : ¬ P .begin) :
    ∃ hd, h'.arena.cell? x = some { c with header := hd } ∧ hd.state = .allocated ∧
      c.header.color.rank ≤ hd.color.rank := by
  refine (hsteps.induct (R := fun g => ∃ hd, g.arena.cell? x = some { c with header := hd } ∧
    hd.state = .allocated ∧ c.header.color.rank ≤ hd.color.rank) hs
    ⟨c.header, hx, hst, Nat.le_refl _⟩ ?_).2
  rintro g l g' hg ⟨hd, hcell, hal, hrank⟩ hP ht
  have hchange := ht.cellChange hg x
  rw [hcell] at hchange
  have hkept : hd.isDoomed = false := by
    have hne := Color.ne_white_of_rank hrank hcol
    simp [Header.isDoomed, Header.isUnreached, hne]
  obtain ⟨hd', hcell', hal', hhc⟩ := hchange.stays hal (fun e => hpark (e ▸ hP)) fun _ => hkept
  exact ⟨hd', hcell', hal', Nat.le_trans hrank (hhc.rank_le hal fun e => hbegin (e ▸ hP))⟩

end Steps

end Heap

end EagerHeap
