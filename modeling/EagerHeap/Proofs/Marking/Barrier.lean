import EagerHeap.Proofs.Heap.Steps
import EagerHeap.Proofs.Marking.Tricolor
/-!
# The write barrier

While the collector marks, every stored address is remembered and every new object is black and
empty. So the tri-color invariant survives whatever happens between two steps of the marker, as long
as objects that may hold addresses are copied in whole words.

Main result: `Tick.tricolor`.
-/

namespace EagerHeap

/-- The elementary changes that respect the write barrier: all but those of the marker itself, and
but copies that end inside of a word that may be an address. -/
def Act.Barred : Act → Prop
  | .paint | .begin | .turn => False
  | .copy _ _ bytes .scan => bytes % Word.bytes = 0
  | _ => True

namespace Phase

variable {p : Phase}

theorem ne_idle_of_isMarking (h : p.isMarking = true) : p ≠ .idle := by
  rintro rfl
  cases h

/-- While a cycle runs new objects are black. -/
theorem allocationColor_of_ne_idle (h : p ≠ .idle) : p.allocationColor = .black := by
  cases p <;> first | rfl | exact absurd rfl h

end Phase

namespace Heap

/-- The gray objects on the list of the attached collector. -/
def grays (h : Heap) : List Nat := (h.collector.map Collector.gray).getD []

/-- The tri-color invariant of a heap: white objects to which black ones point were stored since the
marker last looked. -/
def Tricolor (h : Heap) : Prop := h.arena.Tricolor h.grays (· ∈ h.barrier)

variable {h h' : Heap} {l : Act} {x y v : Nat} {c d : Cell}

/-! ### Objects -/

/-- An object after a change is new, or it is the same object with the same color as before. -/
theorem Tick.object
    (hs : h.Sound)
    (ht : Tick h l h')
    (hpaint : l ≠ .paint)
    (hbegin : l ≠ .begin)
    (ho : h'.arena.Object y d) :
    (l = .birth y ∧ d.header = Header.fresh h.phase.allocationColor) ∨
      ∃ c, h.arena.Object y c ∧ d.size = c.size ∧ d.shape = c.shape ∧
        d.header.color = c.header.color := by
  obtain ⟨hy, hst⟩ := ho
  have hchange := ht.cellChange hs y
  rw [hy] at hchange
  generalize ho : h.arena.cell? y = o at hchange
  cases hchange with
  | carved ha hc =>
      rw [hc] at hst
      cases hst
  | born ha hc => exact Or.inl ⟨ha, hc⟩
  | @kept c hd hc =>
      cases hc with
      | birth hne => exact Or.inl ⟨rfl, rfl⟩
      | park => cases hst
      | uncache => cases hst
      | reclaim => cases hst
      | paint => exact absurd rfl hpaint
      | begin => exact absurd rfl hbegin
      | _ => exact Or.inr ⟨c, ⟨ho, hst⟩, rfl, rfl, rfl⟩

/-! ### What is remembered -/

theorem mem_barrier_remember
    (hv : v ∈ h.barrier)
    (w : Nat) :
    v ∈ (h.remember w).barrier := by
  unfold remember
  split
  · exact Array.mem_push_of_mem _ hv
  · exact hv

theorem mem_barrier_remember_self
    (hm : h.phase.isMarking = true)
    (hv : h.arena.contains v = true) :
    v ∈ (h.remember v).barrier := by
  rw [remember, if_pos (by rw [hv, hm]; rfl)]
  exact Array.mem_push_self

theorem mem_barrier_foldl_remember
    (vs : List Nat)
    (hv : v ∈ h.barrier) :
    v ∈ (vs.foldl remember h).barrier := by
  induction vs generalizing h with
  | nil => exact hv
  | cons w vs ih => exact ih (mem_barrier_remember hv w)

/-- All addresses that are stored one after the other are remembered. -/
theorem mem_barrier_foldl_remember_self
    {vs : List Nat}
    (hm : h.phase.isMarking = true)
    (hc : h.arena.contains v = true)
    (hv : v ∈ vs) :
    v ∈ (vs.foldl remember h).barrier := by
  induction vs generalizing h with
  | nil => cases hv
  | cons w vs ih =>
      rw [List.foldl_cons]
      rcases List.mem_cons.1 hv with rfl | hv
      · exact mem_barrier_foldl_remember vs (mem_barrier_remember_self hm hc)
      · refine ih ?_ ?_ hv
        · rw [(sameCycle_remember h w).phase]
          exact hm
        · rw [arena_remember]
          exact hc

theorem barrier_publish (h : Heap) (b k addr size : Nat) :
    (h.publish b k addr size).barrier = h.barrier := by
  unfold publish
  rfl

theorem barrier_park (h : Heap) (id : Nat) (s : Span) (e : FreeEntry) :
    (h.park id s e).barrier = h.barrier := by
  unfold park pushFree modifyWorker
  rfl

/-- Nothing that respects the barrier takes a remembered address away. -/
theorem Tick.mem_barrier
    (ht : Tick h l h')
    (hl : l.Barred)
    (hv : v ∈ h.barrier) :
    v ∈ h'.barrier := by
  cases ht with
  | still hst => rwa [hst.barrier]
  | @store x i c w hx hst hi =>
      unfold writeWord
      generalize h.arena.write (x + i * Word.bytes) w = a'
      exact mem_barrier_remember (h := { h with arena := a' }) hv w
  | @copy target bytes c source hx hst hb =>
      unfold copyBytes
      generalize h.arena.copy source target bytes = a'
      cases c.shape with
      | scan => exact mem_barrier_foldl_remember (h := { h with arena := a' }) _ hv
      | noScan => exact hv
  | attach kind hx =>
      unfold attachRecord
      split <;> exact hv
  | finalize x =>
      unfold resurrect
      simp only
      split <;> exact hv
  | birthCell hx hne => rwa [barrier_publish]
  | birthRun sh hn hc => rwa [barrier_publish]
  | park => rwa [barrier_park]
  | paint => cases hl
  | begin => cases hl
  | turn => cases hl
  | _ => exact hv

/-- The list of gray objects changes when the marker works, and at no other time of the marking
phases. -/
theorem Tick.grays
    (ht : Tick h l h')
    (hpaint : l ≠ .paint)
    (hbegin : l ≠ .begin)
    (hm : h.phase.isMarking = true) :
    h'.grays = h.grays := by
  unfold Heap.grays
  by_cases hcycle : l.OfCycle
  · cases ht with
    | account hg => rw [hg hm]
    | turn => rfl
    | paint => exact absurd rfl hpaint
    | begin => exact absurd rfl hbegin
    | _ => cases hcycle
  · rw [(ht.sameCycle hcycle).collector]

/-- A value that a change gives to a word is the old value, or it is remembered if it is an
address. -/
theorem Tick.overwrite
    (ht : Tick h l h')
    (hl : l.Barred)
    (hm : h.phase.isMarking = true)
    (hx : h.arena.Object x c)
    (hscan : c.shape = .scan)
    (i old : Nat)
    (hv : h.arena.contains (l.overwrite h x i old) = true) :
    l.overwrite h x i old = old ∨ l.overwrite h x i old ∈ h'.barrier := by
  cases ht with
  | @store z j d w hz hst hj =>
      rw [Act.overwrite] at hv ⊢
      split
      · next heq =>
          rw [if_pos heq] at hv
          have hin := (Arena.sameOutline_write h.arena (z + j * Word.bytes) w).contains w
          unfold writeWord
          generalize h.arena.write (z + j * Word.bytes) w = a' at hin
          exact Or.inr (mem_barrier_remember_self (h := { h with arena := a' }) hm (hin.trans hv))
      · exact Or.inl rfl
  | @copy z bytes d source hz hst hb =>
      rw [Act.overwrite] at hv ⊢
      split
      · next heq =>
          subst heq
          rw [if_pos rfl] at hv
          obtain rfl := hx.unique ⟨hz, hst⟩
          rw [hscan] at hl ⊢
          have hwhole : bytes % Word.bytes = 0 := hl
          unfold Arena.copied at hv ⊢
          by_cases hi : i < bytes / Word.bytes
          · rw [if_pos hi] at hv ⊢
            have hmem : h.arena.memory.read (Arena.wordIndex source + i) ∈
                h.arena.words source (bytes / Word.bytes) :=
              List.mem_map.2 ⟨_, List.mem_range'_1.2 (by omega), rfl⟩
            have hin := (Arena.sameOutline_copy h.arena source z bytes).contains
              (h.arena.memory.read (Arena.wordIndex source + i))
            unfold copyBytes
            generalize h.arena.copy source z bytes = a' at hin
            exact Or.inr (mem_barrier_foldl_remember_self (h := { h with arena := a' }) hm
              (hin.trans hv) hmem)
          · rw [if_neg hi, if_neg (fun hc => hc.2 hwhole)]
            exact Or.inl rfl
      · exact Or.inl rfl
  | _ => exact Or.inl rfl

/-- The tri-color invariant survives every change that respects the write barrier. -/
theorem Tick.tricolor
    (hs : h.Sound)
    (ht : Tick h l h')
    (hl : l.Barred)
    (hm : h.phase.isMarking = true)
    (hi : h.Tricolor) :
    h'.Tricolor := by
  have hblack := Phase.allocationColor_of_ne_idle (Phase.ne_idle_of_isMarking hm)
  have hpaint : l ≠ .paint := by
    rintro rfl
    cases hl
  have hbegin : l ≠ .begin := by
    rintro rfl
    cases hl
  refine ⟨fun y d hd hg => ?_, fun x y c d hc hb hp hd hw => ?_⟩
  · rw [ht.grays hpaint hbegin hm]
    rcases ht.object hs hpaint hbegin hd with ⟨-, hnew⟩ | ⟨e, he, -, -, hcol⟩
    · rw [hnew, hblack] at hg
      cases hg
    · exact hi.listed y e he (hcol ▸ hg)
  · -- The white object is an old one, and so is the black one, as new objects point to nothing.
    rcases ht.object hs hpaint hbegin hd with ⟨-, hnew⟩ | ⟨e, he, -, -, hcol⟩
    · rw [hnew, hblack] at hw
      cases hw
    have hin : h.arena.contains y = true := Arena.contains_of_cell? he.1
    obtain ⟨c', hc', hscan, i, hlt, hy⟩ := hp.exists_word (ht.sound hs).layout
    obtain rfl := hc.unique hc'
    rcases ht.object hs hpaint hbegin hc with ⟨rfl, -⟩ | ⟨b, ho, hsize, hshape, hcol'⟩
    · rw [ht.zeros hs hc.1 hlt] at hy
      exact absurd hy.symm (Arena.ne_zero_of_contains hin)
    · rw [hsize] at hlt
      rw [hshape] at hscan
      rw [ht.read hs ho.1 ho.2 hlt] at hy
      rcases ht.overwrite hl hm ho hscan i _ (hy ▸ hin) with hold | hnew
      · rw [hold] at hy
        have hpoints : h.arena.Points x y := by
          refine ⟨b, ho, hscan, i, hlt, ?_⟩
          rw [Arena.read, hs.layout.wordIndex_word ho.1]
          exact hy
        exact ht.mem_barrier hl (hi.seen x y b e ho (hcol' ▸ hb) hpoints he (hcol ▸ hw))
      · rwa [hy] at hnew

end Heap

end EagerHeap
