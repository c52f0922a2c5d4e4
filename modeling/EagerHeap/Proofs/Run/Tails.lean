import EagerHeap.Proofs.Run.Barrier
import EagerHeap.Proofs.Run.Growth
/-!
# Growing buffers while the collector marks

If a buffer of addresses grows while the collector marks, the collector is told of all whole words that
are copied. The bytes behind them are copied one by one, and the collector is not told of the word that
they leave in the new buffer, although it may be an address if there are five of them or more.

Main results: `growth_tells_whole_words` and `ragged_address_swept`.
-/

namespace EagerHeap

theorem Memory.lowBytes_lt (k v : Nat) : lowBytes k v < 256 ^ k :=
  Nat.mod_lt v (Nat.pow_pos (by decide))

namespace Heap

variable {h g f : Heap} {id size need kept x old a i k v : Nat} {c d : Cell}

/-! ### The words that a growth copies -/

/-- A word of which only low bytes were kept is an address only if there are at least five of them. -/
theorem five_le_of_contains
    (hv : h.arena.contains (Memory.lowBytes k v) = true) :
    5 ≤ k := by
  by_contra hlt
  have hpow : 256 ^ k ≤ 256 ^ 4 := Nat.pow_le_pow_right (by decide) (by omega)
  have hsmall := (Memory.lowBytes_lt k v).trans_le hpow
  have hstart := Arena.start_le_of_contains hv
  simp only [Arena.start] at hstart
  omega

/-- The whole words among the first bytes of a buffer, if there is one. -/
def wholeWords (h : Heap) (old kept : Nat) : List Nat :=
  if old = 0 then [] else (List.range (kept / Word.bytes)).map (h.readWord old)

/-- The word that holds the bytes behind the whole words, and zeros. -/
def raggedWord (h : Heap) (old kept : Nat) : Nat :=
  Memory.lowBytes (kept % Word.bytes) (h.readWord old (kept / Word.bytes))

/-- The addresses among the whole words. -/
def wholeAddresses (h : Heap) (old kept : Nat) : List Nat :=
  (h.wholeWords old kept).filter h.arena.contains

/-- What a growth in a marking phase tells the collector about the addresses that it copies. -/
structure TellsWords (h : Heap) (old kept a : Nat) (g : Heap) : Prop where
  /-- The addresses among the whole words are put into the barrier buffer, and nothing else is. -/
  barrier : g.barrier.toList = h.barrier.toList ++ h.wholeAddresses old kept
  /-- An address in the new object is one of them, or it is made of five bytes or more behind them. -/
  words : ∀ d, g.arena.Object a d → ∀ i < d.size / Word.bytes,
    g.arena.contains (g.readWord a i) = true →
      g.readWord a i ∈ h.wholeAddresses old kept ∨
      i = kept / Word.bytes ∧ old ≠ 0 ∧ 5 ≤ kept % Word.bytes ∧
        g.readWord a i = h.raggedWord old kept
  /-- The bytes behind the whole words are in the new object, with zeros behind them. -/
  ragged : old ≠ 0 → 0 < kept % Word.bytes → ∃ d, g.arena.Object a d ∧
    kept / Word.bytes < d.size / Word.bytes ∧
      g.readWord a (kept / Word.bytes) = h.raggedWord old kept
  /-- The bounds of the arena stay. -/
  bounds : ∀ v, g.arena.contains v = h.arena.contains v
  /-- The phase stays. -/
  phase : g.phase = h.phase

/-- All addresses in the new object were put into the barrier buffer exactly if the bytes behind the
whole words make no other address. -/
theorem TellsWords.all_iff
    (ht : h.TellsWords old kept a g) :
    (∀ d, g.arena.Object a d → ∀ i < d.size / Word.bytes, g.arena.contains (g.readWord a i) = true →
        g.readWord a i ∈ h.wholeAddresses old kept) ↔
      (old ≠ 0 → h.arena.contains (h.raggedWord old kept) = true →
        h.raggedWord old kept ∈ h.wholeAddresses old kept) := by
  constructor
  · intro hall h0 hin
    have hfive : 5 ≤ kept % Word.bytes := five_le_of_contains hin
    obtain ⟨d, hobj, hlt, hword⟩ := ht.ragged h0 (by omega)
    rw [← hword]
    refine hall d hobj _ hlt ?_
    rw [hword, ht.bounds]
    exact hin
  · intro hragged d hobj i hi hin
    rcases ht.words d hobj i hi hin with hmem | ⟨-, h0, -, hword⟩
    · exact hmem
    · rw [ht.bounds] at hin
      rw [hword] at hin ⊢
      exact hragged h0 hin

/-- The words of an object are those of the memory. -/
theorem words_eq
    (hl : h.arena.Layout)
    (hx : h.arena.cell? x = some c)
    (n : Nat) :
    h.arena.words x n = (List.range n).map (h.readWord x) := by
  rw [Arena.words, List.range'_eq_map_range, List.map_map]
  refine List.map_congr_left fun i _ => ?_
  rw [Function.comp_apply, readWord_eq hl hx]

/-- Copying puts the addresses among the whole words into the barrier buffer. -/
theorem barrier_carryOver
    (hs : h.Sound)
    (hold : old = 0 ∨ ∃ c, h.arena.Object old c)
    (hmark : h.phase.isMarking = true)
    (a : Nat) :
    (h.carryOver old a kept .scan).barrier.toList =
      h.barrier.toList ++ h.wholeAddresses old kept := by
  rw [carryOver, wholeAddresses, wholeWords]
  by_cases h0 : old = 0
  · rw [if_neg fun hand => hand.1 h0, if_pos h0, List.filter_nil, List.append_nil]
  · obtain ⟨c, hobj⟩ := hold.resolve_left h0
    rw [if_neg h0]
    by_cases hkept : 0 < kept
    · rw [if_pos ⟨h0, hkept⟩, ← words_eq hs.layout hobj.1]
      have hput := toList_foldl_remember (h.arena.words old (kept / Word.bytes))
        { h with arena := h.arena.copy old a kept }
      simp only [(Arena.sameOutline_copy h.arena old a kept).contains, hmark, Bool.and_true] at hput
      exact hput
    · obtain rfl := Nat.eq_zero_of_not_pos hkept
      rw [if_neg fun hand => hkept hand.2, Nat.zero_div, List.range_zero, List.map_nil,
        List.filter_nil, List.append_nil]

/-- Without bytes behind the whole words nothing is left of a word. -/
theorem raggedWord_of_dvd
    (hzero : kept % Word.bytes = 0)
    (h : Heap) (old : Nat) :
    h.raggedWord old kept = 0 := by
  rw [raggedWord, hzero]
  exact Nat.mod_one _

/-- The words of a new object after bytes of an old one were copied. -/
theorem Provides.words_carried
    (hp : h.Provides a need .scan f)
    (hs : h.Sound)
    (hobj : h.arena.Object old c)
    (hle : kept ≤ c.size)
    (hd : f.arena.Object a d)
    (hi : i < d.size / Word.bytes) :
    (f.carryOver old a kept .scan).readWord a i =
      if i < kept / Word.bytes then h.readWord old i
      else if i = kept / Word.bytes then h.raggedWord old kept
      else 0 := by
  have h0 := Arena.ne_zero_of_contains (Arena.contains_of_cell? hobj.1)
  have hzero := hp.zeros d hd i hi
  have hmod := (hs.layout.aligned hobj.1).2
  obtain ⟨hne, hobj', hwords⟩ := hp.stays hs hobj
  rcases Nat.eq_zero_or_pos kept with rfl | hpos
  · have hnone : h.raggedWord old 0 = 0 := raggedWord_of_dvd rfl h old
    rw [carryOver, if_neg fun hand => Nat.lt_irrefl 0 hand.2, hzero, Nat.zero_div,
      if_neg (Nat.not_lt_zero i), hnone, ite_self]
  rw [carryOver, if_pos ⟨h0, hpos⟩,
    word_copyBytes (hp.steps.sound hs).layout hobj'.1 hd.1 hne hle hi hzero]
  by_cases hwhole : i < kept / Word.bytes
  · rw [if_pos hwhole, if_pos hwhole, hwords i]
    simp only [Word.bytes] at hwhole hmod ⊢
    omega
  rw [if_neg hwhole, if_neg hwhole]
  by_cases hlast : i = kept / Word.bytes
  · rw [if_pos hlast, if_pos hlast]
    by_cases hrest : kept % Word.bytes = 0
    · rw [raggedWord_of_dvd hrest, hrest]
      exact Nat.mod_one _
    · rw [raggedWord, hwords i, hlast]
      simp only [Word.bytes] at hlast hmod hrest ⊢
      omega
  · rw [if_neg hlast, if_neg hlast]

theorem wholeWords_congr
    (hwords : old ≠ 0 → ∀ i < kept / Word.bytes, g.readWord old i = h.readWord old i) :
    g.wholeWords old kept = h.wholeWords old kept := by
  rw [wholeWords, wholeWords]
  split
  · rfl
  · next h0 => exact List.map_congr_left fun i hi => hwords h0 i (List.mem_range.1 hi)

/-- A growth puts the addresses among the whole words into the barrier buffer, and no others. -/
theorem Provides.barrier_handOver
    (hp : h.Provides a need .scan f)
    (hs : h.Sound)
    (hold : old = 0 ∨ ∃ c, h.arena.Object old c ∧ kept ≤ c.size)
    (hkept : kept ≤ need)
    (hmark : h.phase.isMarking = true)
    (id size : Nat) :
    ((f.carryOver old a kept .scan).letGo id old a size .scan).barrier.toList =
      h.barrier.toList ++ h.wholeAddresses old kept := by
  have hf := hp.steps.sound hs
  have hcarried := (carryOver_steps hp.object hkept old).sound hf
  have hgo := letGo_steps hcarried id old a size .scan
  have hquiet : f.barrier = h.barrier := hp.steps.barrier_eq (by simp) (by simp [Act.Writes])
  have hphase : f.phase = h.phase := hp.steps.phase (by simp) (by simp)
  have hwords : f.wholeWords old kept = h.wholeWords old kept := by
    refine wholeWords_congr fun h0 i hi => ?_
    obtain ⟨c, ho, hle⟩ := hold.resolve_left h0
    have hmod := (hs.layout.aligned ho.1).2
    refine (hp.stays hs ho).2.2 i ?_
    simp only [Word.bytes] at hi hmod ⊢
    omega
  have hold' : old = 0 ∨ ∃ c, f.arena.Object old c :=
    hold.imp_right (Exists.imp fun c ho => (hp.stays hs ho.1).2.1)
  rw [hgo.barrier_eq (by simp) (by simp [Act.Writes]),
    barrier_carryOver hf hold' (hphase ▸ hmark) a, hquiet, wholeAddresses, hwords]
  exact congrArg _ (List.filter_congr fun x _ => hp.steps.contains hs x)

/-- A growth in a marking phase tells the collector of all addresses that it copies but for one that
bytes behind the whole words make. -/
theorem Provides.tellsWords
    (hp : h.Provides a need .scan f)
    (hs : h.Sound)
    (hold : old = 0 ∨ ∃ c, h.arena.Object old c ∧ kept ≤ c.size)
    (hkept : kept ≤ need)
    (hmark : h.phase.isMarking = true)
    (id size : Nat) :
    h.TellsWords old kept a ((f.carryOver old a kept .scan).letGo id old a size .scan) := by
  have hf := hp.steps.sound hs
  have hcarry := carryOver_steps hp.object hkept old
  have hgo := letGo_steps (hcarry.sound hf) id old a size .scan
  have hbounds : ∀ v, ((f.carryOver old a kept .scan).letGo id old a size .scan).arena.contains v =
      h.arena.contains v := fun v => by
    rw [hgo.contains (hcarry.sound hf), hcarry.contains hf, hp.steps.contains hs]
  obtain ⟨d, hobj, hserves⟩ := hp.object
  obtain ⟨-, hnew, hsame⟩ :=
    hp.handed hs (hold.imp_right fun ⟨c, ho, _⟩ => ⟨c, ho⟩) hkept hobj id size
  refine ⟨hp.barrier_handOver hs hold hkept hmark id size, fun e he i hi hin => ?_,
    fun h0 hrest => ?_, hbounds, ?_⟩
  · obtain rfl := he.unique hnew
    rw [hbounds, hsame i hi] at hin
    rw [hsame i hi]
    have hnonzero := Arena.ne_zero_of_contains hin
    by_cases h0 : old = 0
    · rw [carryOver, if_neg fun hand => hand.1 h0, hp.zeros e hobj i hi] at hnonzero
      exact absurd rfl hnonzero
    obtain ⟨c, ho, hle⟩ := hold.resolve_left h0
    rw [hp.words_carried hs ho hle hobj hi] at hin hnonzero ⊢
    by_cases hwhole : i < kept / Word.bytes
    · rw [if_pos hwhole] at hin ⊢
      refine Or.inl (List.mem_filter.2 ⟨?_, hin⟩)
      rw [wholeWords, if_neg h0]
      exact List.mem_map.2 ⟨i, List.mem_range.2 hwhole, rfl⟩
    rw [if_neg hwhole] at hin hnonzero ⊢
    by_cases hlast : i = kept / Word.bytes
    · rw [if_pos hlast] at hin ⊢
      exact Or.inr ⟨hlast, h0, five_le_of_contains hin, rfl⟩
    · rw [if_neg hlast] at hnonzero
      exact absurd rfl hnonzero
  · obtain ⟨c, ho, hle⟩ := hold.resolve_left h0
    have hlt : kept / Word.bytes < d.size / Word.bytes := by
      have hmod := (hf.layout.aligned hobj.1).2
      have hroom := hkept.trans hserves.room
      simp only [Word.bytes] at hmod hrest ⊢
      omega
    refine ⟨d, hnew, hlt, ?_⟩
    rw [hsame _ hlt, hp.words_carried hs ho hle hobj hlt, if_neg (Nat.lt_irrefl _), if_pos rfl]
  · rw [hgo.phase (by simp) (by simp), hcarry.phase (by simp) (by simp),
      hp.steps.phase (by simp) (by simp)]

theorem Growing.tellsWords
    {capacity length elementSize extra next : Nat} {r : Except Failure (Nat × Nat)}
    (hgrow : Growing id old capacity length elementSize .scan extra h r g)
    (hs : h.Sound)
    (hold : old = 0 ∨ ∃ c, h.arena.Object old c ∧ capacity * elementSize ≤ c.size)
    (hmark : h.phase.isMarking = true)
    (hr : r = .ok (a, next)) :
    h.TellsWords old (keptBytes capacity length extra elementSize) a g := by
  obtain ⟨-, hkept, f, hp, rfl⟩ := hgrow.handsOver hs hr
  exact hp.tellsWords hs (hold.imp_right fun ⟨c, ho, hsize⟩ =>
    ⟨c, ho, (keptBytes_le ..).trans hsize⟩) hkept hmark id _

end Heap

namespace Machine

variable {m : Machine} {ys : List Move} {id old capacity length elementSize extra a next x : Nat}
  {memory : Nat} {c : Config} {h g : Heap} {k : Cell}

open Heap

/-- Whenever the sweeping phase begins next, the object at the address is reached, unless it was freed
eagerly before. -/
def Rescues (m : Machine) (x : Nat) : Prop :=
  ∀ mid, .enterSweep ∉ mid → Legal SweepsInPhase m (mid ++ [.enterSweep]) →
    m.ParksIn mid x ∨ (m.run (mid ++ [.enterSweep])).heap.arena.isReached x = true

theorem Shading.rescues
    (hx : m.Shading x k)
    (hm : m.Proper) :
    m.Rescues x := by
  intro mid henter hl
  obtain ⟨hmid, hlast⟩ := legal_append.1 hl
  rcases hmid.shading (fun _ _ h => h) hm henter hx with ⟨-, hd, hobj, hcol⟩ | hparks
  · right
    rw [run_append]
    -- The change of the phase changes no cell.
    change (m.run mid).heap.arena.isReached x = true
    exact Arena.isReached_iff.2 ⟨_, hobj.1, hobj.2, hcol.resolve_right fun h => h.2 hlast.1⟩
  · exact Or.inl hparks

/-- A growth in a marking phase tells the collector of all whole words that it copies, and of nothing
else. So no address is hidden in the new buffer, unless five bytes or more behind the whole words make
one, and the objects that it was told of are reached before the sweeper comes. -/
theorem growth_tells_whole_words
    {σ : Type} {hooks : Hooks σ} {client : σ} {w : World σ}
    (hk : hooks.Silent)
    (hc : Heap.create memory c = .ok h)
    (hl : Legal (fun _ _ => True) (start h) ys)
    (hid : ∃ w ∈ ((start h).run ys).heap.workers, w.id = id)
    (hpos : 0 < elementSize)
    (hextra : extra ≤ length)
    (hold : old = 0 ∨
      ∃ b, ((start h).run ys).heap.arena.Object old b ∧ capacity * elementSize ≤ b.size)
    (hmark : ((start h).run ys).heap.phase.isMarking = true)
    (hrun : ExceptT.run (Action.growUnaliased hooks id old capacity length elementSize .scan extra)
      ⟨((start h).run ys).heap, client⟩ = (.ok (a, next), w)) :
    let m := (start h).run ys
    let kept := keptBytes capacity length extra elementSize
    m.heap.TellsWords old kept a w.heap ∧
      ((∀ d, w.heap.arena.Object a d → ∀ i < d.size / Word.bytes,
          w.heap.arena.contains (w.heap.readWord a i) = true →
          w.heap.readWord a i ∈ m.heap.wholeAddresses old kept) ↔
        (old ≠ 0 → m.heap.arena.contains (m.heap.raggedWord old kept) = true →
          m.heap.raggedWord old kept ∈ m.heap.wholeAddresses old kept)) ∧
      (m.stage ≠ .resurrected → ∀ x ∈ m.heap.wholeAddresses old kept,
        w.heap.arena.isAllocated x = true → ({ m with heap := w.heap } : Machine).Rescues x) := by
  intro m kept
  have hm : m.Proper := hl.proper (proper_start hc)
  have hr : m.heap.Staffed id := hl.staffed hc hid
  obtain ⟨r, g, hends, hgrow⟩ := Action.ends_growUnaliased hk hr hpos hextra old capacity .scan
  obtain ⟨v, hrun', rfl⟩ := hends ⟨m.heap, client⟩ rfl
  obtain ⟨rfl, rfl⟩ := Prod.mk.inj (hrun.symm.trans hrun')
  have htells := hgrow.tellsWords hm.sound hold hmark rfl
  refine ⟨htells, htells.all_iff, fun hstage x hx hal => ?_⟩
  obtain ⟨d, hcell, hst⟩ := Arena.isAllocated_iff.1 hal
  have hput : x ∈ w.heap.barrier := by
    rw [← Array.mem_toList_iff, htells.barrier]
    exact List.mem_append_right _ hx
  have hshading : ({ m with heap := w.heap } : Machine).Shading x d := by
    refine ⟨?_, d.header, ⟨hcell, hst⟩, Or.inr ⟨hput, hstage⟩⟩
    rw [htells.phase]
    exact hmark
  exact hshading.rescues (Growing.proper hgrow hm hr (hold.imp_right fun ⟨c, ho, _⟩ => ⟨c, ho⟩) rfl)

/-- A buffer of bytes holds the addresses of two objects. All bytes of the first one are in use, and
five bytes of the second one. A cycle has begun. -/
def raggedBuffer : List Move :=
  [.addWorker, .carveBlock quarterBlock, .setCursor 0 quarterBlock 0, .claim 0 quarterBlock,
    .claim 0 quarterBlock, .claim 0 quarterBlock, .write Arena.start 0 (Arena.start + 4096),
    .write Arena.start 1 (Arena.start + 8192), .attachCollector, .begin, .shadeRoots []]

/-- 4084 bytes are appended to the thirteen that are in use. -/
def raggedGrowth : Except Failure (Nat × Nat) × World Unit :=
  ExceptT.run (Action.growUnaliased idleClient 0 Arena.start 4096 4097 1 .scan 4084)
    ⟨((start (.empty fourBlocks)).run raggedBuffer).heap, ()⟩

/-- The cycle goes on with the new buffer as its root. -/
def raggedCycle : List Move :=
  [.terminate, .finishMarking [Arena.blockBase 1], .resurrect, .enterSweep, .zeroSlots, .startSweep,
    .sweepStep 4]

/-- The collector is told of the first object, which is reached before the sweeper comes. -/
theorem growth_tells_whole_words_first :
    raggedGrowth.1 = .ok (Arena.blockBase 1, 8192) ∧
      ((start (.empty fourBlocks)).run raggedBuffer).heap.TellsWords Arena.start 13
        (Arena.blockBase 1) raggedGrowth.2.heap ∧
      raggedGrowth.2.heap.barrier.toList = [Arena.start + 4096] ∧
      ({ (start (.empty fourBlocks)).run raggedBuffer with heap := raggedGrowth.2.heap } :
        Machine).Rescues (Arena.start + 4096) := by
  have hlegal : Legal (fun _ _ => True) (start (.empty fourBlocks)) raggedBuffer := by
    decide +kernel
  have hid : ∃ w ∈ ((start (.empty fourBlocks)).run raggedBuffer).heap.workers, w.id = 0 := by
    decide +kernel
  have hobj : ∃ b, ((start (.empty fourBlocks)).run raggedBuffer).heap.arena.cell? Arena.start =
      some b ∧ b.header.state = .allocated ∧ 4096 * 1 ≤ b.size := by
    decide +kernel
  obtain ⟨b, hb, hst, hsize⟩ := hobj
  have hmark : ((start (.empty fourBlocks)).run raggedBuffer).heap.phase.isMarking = true := by
    decide +kernel
  have hresult : raggedGrowth.1 = .ok (Arena.blockBase 1, 8192) := by decide +kernel
  have hstage : ((start (.empty fourBlocks)).run raggedBuffer).stage ≠ .resurrected := by
    decide +kernel
  have htold : ((start (.empty fourBlocks)).run raggedBuffer).heap.wholeAddresses Arena.start 13 =
      [Arena.start + 4096] := by
    decide +kernel
  have hempty : ((start (.empty fourBlocks)).run raggedBuffer).heap.barrier.toList = [] := by
    decide +kernel
  have hgrowth := growth_tells_whole_words silent_idleClient create_fourBlocks hlegal hid Nat.one_pos
    (show 4084 ≤ 4097 by decide) (Or.inr ⟨b, ⟨hb, hst⟩, hsize⟩) hmark
    (show raggedGrowth = _ from Prod.ext hresult rfl)
  dsimp only at hgrowth
  rw [show keptBytes 4096 4097 4084 1 = 13 by decide, htold] at hgrowth
  obtain ⟨htells, -, hrescues⟩ := hgrowth
  refine ⟨hresult, htells, ?_, hrescues hstage _ (List.mem_singleton_self _) (by decide +kernel)⟩
  rw [htells.barrier, hempty, htold, List.nil_append]

/-- The five bytes make the address of the second object, of which the collector is not told. So the
sweeper frees an object whose address a live object holds. -/
theorem ragged_address_swept :
    let m := (start (.empty fourBlocks)).run raggedBuffer
    let grown := { m with heap := raggedGrowth.2.heap }
    let swept := grown.run raggedCycle
    m.heap.phase = .mark ∧ raggedGrowth.1 = .ok (Arena.blockBase 1, 8192) ∧
      grown.heap.arena.isReached (Arena.blockBase 1) = true ∧
      grown.heap.readWord (Arena.blockBase 1) 1 = Arena.start + 8192 ∧
      grown.heap.arena.isAllocated (Arena.start + 8192) = true ∧
      Arena.start + 8192 ∉ grown.heap.barrier ∧
      Legal SweepsInPhase grown raggedCycle ∧
      swept.heap.arena.isReached (Arena.blockBase 1) = true ∧
      swept.heap.readWord (Arena.blockBase 1) 1 = Arena.start + 8192 ∧
      swept.heap.arena.isAllocated (Arena.start + 8192) = false := by
  decide +kernel

end Machine

end EagerHeap
