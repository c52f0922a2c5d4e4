import EagerHeap.Proofs.Growth
import EagerHeap.Proofs.Run.Staffed
/-!
# Growing buffers in the states of a run

In every state of a run the growth of a buffer fails for want of room or gives another buffer with the
bytes that are kept. The old buffer is freed if that is accepted, and no other object changes.

Main results: `Growing.attains` and `growth_keeps_buffer`.
-/

namespace EagerHeap

/-- The move is a piece of a growth, apart from counting that it has freed the old object. -/
def Move.OfGrowth : Move → Prop
  | .reuse .. | .claim .. | .takePartial _ | .carveBlock _ | .setCursor .. | .carveRun .. | .copy ..
  | .free .. => True
  | .count _ c _ => c ≠ .growFrees
  | _ => False

namespace Machine

variable {m : Machine} {ys : List Move} {id old capacity length elementSize extra size : Nat}
  {sh : Shape} {memory : Nat} {c : Config} {h g : Heap} {e : Ends}

open Heap

/-! ### Growths as runs of moves -/

/-- The heap can be reached by moves of a growth that leave the rest of the machine as it is. -/
def Attains (m : Machine) (g : Heap) : Prop :=
  ∃ zs, m.run zs = { m with heap := g } ∧ Legal (fun _ y => y.OfGrowth) m zs

theorem Attains.refl (m : Machine) : m.Attains m.heap := ⟨[], rfl, trivial⟩

theorem Attains.single
    {y : Move}
    (hsame : m.apply y = { m with heap := g })
    (hal : m.Allows y)
    (hy : y.OfGrowth) :
    m.Attains g :=
  ⟨[y], hsame, hal, hy, trivial⟩

theorem Attains.trans
    (hg : m.Attains g)
    (hh : ({ m with heap := g } : Machine).Attains h) :
    m.Attains h := by
  obtain ⟨ys, hys, hl⟩ := hg
  obtain ⟨zs, hzs, hl'⟩ := hh
  rw [← hys] at hzs hl'
  refine ⟨ys ++ zs, ?_, legal_append.2 ⟨hl, hl'⟩⟩
  rw [run_append, hzs, hys]

theorem Attains.proper
    (hg : m.Attains g)
    (hm : m.Proper) :
    ({ m with heap := g } : Machine).Proper := by
  obtain ⟨zs, hrun, hl⟩ := hg
  rw [← hrun]
  exact hl.proper hm

theorem Reaches.attains
    (hg : m.Reaches e g) :
    m.Attains g := by
  obtain ⟨zs, hrun, hl, -⟩ := hg
  refine ⟨zs, hrun, hl.mono fun m y hy => ?_⟩
  cases y with
  | reuse | claim | takePartial | carveBlock | setCursor => trivial
  | _ => cases hy

/-- An allocation of bytes consists of moves. -/
theorem Obtaining.attains
    {r : Except Failure Nat}
    (ho : Obtaining id size sh m.heap r g)
    (hr : m.heap.Staffed id) :
    m.Attains g := by
  have hcount : m.Attains (m.heap.count id .slowAllocations 1) :=
    Attains.single (y := .count id .slowAllocations 1) rfl trivial Counter.noConfusion
  cases ho with
  | @reused _ k x hk hreuse =>
      refine Attains.single (y := .reuse id ⟨k, sh⟩) ?_ trivial trivial
      rw [show g = ((Heap.reuse id ⟨k, sh⟩).run m.heap).2 from (congrArg Prod.snd hreuse).symm]
      rfl
  | searched hk hc =>
      have hserves : m.Serves {} id := ⟨hr.lives, List.not_mem_nil⟩
      exact (Claiming.reaches hc rfl hr hserves).attains
  | carved hk hcarve =>
      refine hcount.trans (Attains.single (y := .carveRun (blocksFor (max size 1)) sh) ?_
        (blocksFor_pos size) trivial)
      rw [show g = ((Heap.carveRun (blocksFor (max size 1)) sh).run
        (m.heap.count id .slowAllocations 1)).2 from (congrArg Prod.snd hcarve).symm]
      rfl
  | exhausted => exact hcount

theorem attains_carryOver
    {a kept need : Nat}
    (ha : ∃ d, m.heap.arena.Object a d ∧ d.Serves need sh)
    (hkept : kept ≤ need)
    (old : Nat) :
    m.Attains (m.heap.carryOver old a kept sh) := by
  obtain ⟨d, hobj, hserves⟩ := ha
  rw [carryOver]
  split
  · exact Attains.single (y := .copy old a kept sh) rfl
      ⟨d, hobj.1, hobj.2, hserves.shape, hkept.trans hserves.room⟩ trivial
  · exact Attains.refl m

/-- A growth that succeeds consists of moves: the buffer is handed over, and an accepted eager free of
the old object is counted at the end. -/
theorem Growing.attains
    {r : Except Failure (Nat × Nat)} {a next : Nat}
    (hgrow : Growing id old capacity length elementSize sh extra m.heap r g)
    (hr : m.heap.Staffed id)
    (hold : old = 0 ∨ ∃ c, m.heap.arena.Object old c)
    (hres : r = .ok (a, next)) :
    ∃ f, m.Attains f ∧
      ((m.heap.free id old (capacity * elementSize) (some sh)).1 = none ∧
          g = f.count id .growFrees 1 ∨
        (m.heap.free id old (capacity * elementSize) (some sh)).1 ≠ none ∧ g = f) := by
  have hcount : m.Attains (m.heap.count id .growCalls 1) :=
    Attains.single (y := .count id .growCalls 1) rfl trivial Counter.noConfusion
  have hcounted := hr.count id .growCalls 1
  cases hgrow with
  | refused | failed => cases hres
  | @grown f a next hc ho =>
      have hle := le_nextCapacity hc
      have hkept : keptBytes capacity length extra elementSize ≤ next * elementSize :=
        Nat.mul_le_mul_right _ (by omega)
      have hp := ho.provides hcounted.sound rfl
      have hcarry := hcount.trans ((Obtaining.attains (m := { m with heap := _ }) ho hcounted).trans
        (attains_carryOver (m := { m with heap := f }) hp.object hkept old))
      rw [letGo]
      rcases hold with rfl | ⟨c, hobj⟩
      · exact ⟨_, hcarry, Or.inr ⟨free_zero_ne_none m.heap id _ _, if_neg fun hand => hand.1 rfl⟩⟩
      · have hne := (hp.of_count.stays hr.sound hobj).1
        have h0 := Arena.ne_zero_of_contains (Arena.contains_of_cell? hobj.1)
        have haccept := hp.of_count.free_carried hr.sound hkept hobj id (capacity * elementSize)
        have hfree : m.Attains ((f.carryOver old a
            (keptBytes capacity length extra elementSize) sh).free id old
              (capacity * elementSize) (some sh)).2 :=
          hcarry.trans (Attains.single (y := .free id old (capacity * elementSize) (some sh)) rfl
            trivial trivial)
        rw [if_pos ⟨h0, hne⟩]
        generalize (f.carryOver old a (keptBytes capacity length extra elementSize) sh).free id old
          (capacity * elementSize) (some sh) = freed at haccept hfree ⊢
        rcases freed with ⟨_ | reason, p⟩
        · exact ⟨p, hfree, Or.inl ⟨haccept.1 rfl, rfl⟩⟩
        · exact ⟨p, hfree, Or.inr ⟨fun hfreed => Option.some_ne_none _ (haccept.2 hfreed), rfl⟩⟩

theorem Growing.proper
    {r : Except Failure (Nat × Nat)} {a next : Nat}
    (hgrow : Growing id old capacity length elementSize sh extra m.heap r g)
    (hm : m.Proper)
    (hr : m.heap.Staffed id)
    (hold : old = 0 ∨ ∃ c, m.heap.arena.Object old c)
    (hres : r = .ok (a, next)) :
    ({ m with heap := g } : Machine).Proper := by
  obtain ⟨f, hf, ⟨-, rfl⟩ | ⟨-, rfl⟩⟩ := Growing.attains hgrow hr hold hres
  · exact (hf.proper hm).apply (y := .count id .growFrees 1) trivial
  · exact hf.proper hm

/-! ### What a growth makes of a heap -/

/-- A growth keeps the buffer. It fails for want of room, or because a size is no machine word; or it
gives a buffer that is not the old one, with a capacity that suffices, and makes of the heap what
`Grown` says. -/
theorem growth_keeps_buffer
    {σ : Type} {hooks : Hooks σ}
    (hk : hooks.Silent)
    (hc : Heap.create memory c = .ok h)
    (hl : Legal (fun _ _ => True) (start h) ys)
    (hid : ∃ w ∈ ((start h).run ys).heap.workers, w.id = id)
    (hpos : 0 < elementSize)
    (hextra : extra ≤ length)
    (hold : old = 0 ∨
      ∃ b, ((start h).run ys).heap.arena.Object old b ∧ capacity * elementSize ≤ b.size)
    (sh : Shape) (client : σ) :
    let before := ((start h).run ys).heap
    let grown := ExceptT.run
      (Action.growUnaliased hooks id old capacity length elementSize sh extra) ⟨before, client⟩
    (∃ o, grown.1 = .error o ∧ o.OfRoom) ∨
      ∃ a next, grown.1 = .ok (a, next) ∧ max length 1 ≤ next ∧
        before.Grown id old (capacity * elementSize)
          (keptBytes capacity length extra elementSize) a (next * elementSize) sh
          grown.2.heap := by
  intro before grown
  have hr : before.Staffed id := hl.staffed hc hid
  obtain ⟨r, g, hends, hgrow⟩ := Action.ends_growUnaliased hk hr hpos hextra old capacity sh
  obtain ⟨w, hrun, rfl⟩ := hends ⟨before, client⟩ rfl
  have hgrown : grown = (r, w) := hrun
  rw [hgrown]
  cases hres : r with
  | error o => exact Or.inl ⟨o, rfl, hgrow.ofRoom hpos hres⟩
  | ok p =>
      obtain ⟨hle, hspec⟩ := hgrow.spec hr.sound hold (hres.trans rfl)
      exact Or.inr ⟨p.1, p.2, rfl, hle, hspec⟩

/-- Two words are written into a new buffer. -/
def writtenBuffer : List Move :=
  [.addWorker, .carveBlock quarterBlock, .setCursor 0 quarterBlock 0, .claim 0 quarterBlock,
    .write Arena.start 0 72623859790382856, .write Arena.start 1 72623859790382856]

/-- Thirteen bytes of a buffer are kept: the last five lie in a word of which the other three are not
copied. -/
theorem growth_keeps_buffer_ragged :
    let before := ((start (.empty fourBlocks)).run writtenBuffer).heap
    let grown := ExceptT.run
      (Action.growUnaliased idleClient 0 Arena.start 4096 14 1 .scan 1) ⟨before, ()⟩
    grown.1 = .ok (Arena.start + 4096, 4096) ∧
      before.Grown 0 Arena.start (4096 * 1) (keptBytes 4096 14 1 1) (Arena.start + 4096) (4096 * 1)
        .scan grown.2.heap ∧
      keptBytes 4096 14 1 1 = 13 ∧
      grown.2.heap.readWord (Arena.start + 4096) 0 = 72623859790382856 ∧
      grown.2.heap.readWord (Arena.start + 4096) 1 = 17264150280 ∧
      (before.free 0 Arena.start 4096 (some .scan)).1 = none := by
  dsimp only
  have hlegal : Legal (fun _ _ => True) (start (.empty fourBlocks)) writtenBuffer := by
    decide +kernel
  have hid : ∃ w ∈ ((start (.empty fourBlocks)).run writtenBuffer).heap.workers, w.id = 0 := by
    decide +kernel
  have hobj : ∃ b, ((start (.empty fourBlocks)).run writtenBuffer).heap.arena.cell? Arena.start =
      some b ∧ b.header.state = .allocated ∧ 4096 * 1 ≤ b.size := by
    decide +kernel
  obtain ⟨b, hb, hst, hsize⟩ := hobj
  have hresult : (ExceptT.run (Action.growUnaliased idleClient 0 Arena.start 4096 14 1 .scan 1)
      ⟨((start (.empty fourBlocks)).run writtenBuffer).heap, ()⟩).1 =
        .ok (Arena.start + 4096, 4096) := by
    decide +kernel
  refine ⟨hresult, ?_, by decide, by decide +kernel, by decide +kernel, by decide +kernel⟩
  rcases growth_keeps_buffer silent_idleClient create_fourBlocks hlegal hid Nat.one_pos
    (show 1 ≤ 14 by decide) (Or.inr ⟨b, ⟨hb, hst⟩, hsize⟩) .scan () with
    ⟨o, ho, -⟩ | ⟨a, n, ha, -, hg⟩
  · cases hresult.symm.trans ho
  · obtain ⟨rfl, rfl⟩ := Prod.mk.inj (Except.ok.inj (hresult.symm.trans ha))
    exact hg

end Machine

end EagerHeap
