import EagerHeap.Proofs.Run.Tracking
/-!
# Where tracked objects come from

A worker records an object some time after it was handed out, and whole cycles may come in between or
later. The address that is found in a slot of an open scope still belongs to the object that was
recorded there, and not to a later one at the same address.

Main result: `tracked_objects_recorded`.
-/

namespace EagerHeap

namespace Machine

variable {m : Machine} {l : Ledger} {y : Move} {ys : List Move} {memory : Nat} {c : Config} {h : Heap}
  {k i x e : Nat}

open Heap

/-- An object was handed out in an epoch of the run and stayed since then. -/
def HandedOut (m : Machine) (ys : List Move) (x d : Nat) : Prop :=
  ∃ before y after, ys = before ++ y :: after ∧ (m.run before).handsOut y = some x ∧
    (m.run before).heap.epoch = d ∧
    ∀ zs, zs <+: after → (m.run (before ++ y :: zs)).heap.arena.isAllocated x = true

/-- The object at an address is the one that was recorded in a slot of a scope: it was handed out in
the run, at the noted epoch or later, and then recorded; it stayed since it was handed out, and it
stayed in its slot since it was recorded. -/
def Recorded (m : Machine) (ys : List Move) (k i x : Nat) : Prop :=
  ∃ before y mid e after, ys = before ++ y :: (mid ++ .recordTracked k x e :: after) ∧
    (m.run before).handsOut y = some x ∧ e ≤ (m.run before).heap.epoch ∧
    (∀ zs, zs <+: mid ++ .recordTracked k x e :: after →
      (m.run (before ++ y :: zs)).heap.arena.isAllocated x = true) ∧
    ∀ zs, zs <+: after →
      (m.run (before ++ y :: (mid ++ .recordTracked k x e :: zs))).heap.Tracks k i x

theorem HandedOut.snoc
    {d : Nat}
    (hx : m.HandedOut ys x d)
    (hal : (m.run (ys ++ [y])).heap.arena.isAllocated x = true) :
    m.HandedOut (ys ++ [y]) x d := by
  obtain ⟨before, z, after, rfl, hz, hd, halive⟩ := hx
  refine ⟨before, z, after ++ [y], by simp, hz, hd, fun zs hzs => ?_⟩
  rcases List.prefix_concat_iff.1 hzs with rfl | hzs
  · simpa using hal
  · exact halive zs hzs

theorem Recorded.snoc
    (hx : m.Recorded ys k i x)
    (hal : (m.run (ys ++ [y])).heap.arena.isAllocated x = true)
    (htracks : (m.run (ys ++ [y])).heap.Tracks k i x) :
    m.Recorded (ys ++ [y]) k i x := by
  obtain ⟨before, z, mid, e, after, rfl, hz, he, halive, htracked⟩ := hx
  refine ⟨before, z, mid, e, after ++ [y], by simp, hz, he, fun zs hzs => ?_, fun zs hzs => ?_⟩
  · rw [← List.cons_append, ← List.append_assoc] at hzs
    rcases List.prefix_concat_iff.1 hzs with rfl | hzs
    · simpa using hal
    · exact halive zs hzs
  · rcases List.prefix_concat_iff.1 hzs with rfl | hzs
    · simpa using htracks
    · exact htracked zs hzs

/-- Recording makes of an object that was handed out the one of its slot. -/
theorem HandedOut.recorded
    {d : Nat}
    (hx : m.HandedOut ys x d)
    (he : e ≤ d)
    (hal : (m.run (ys ++ [.recordTracked k x e])).heap.arena.isAllocated x = true)
    (htracks : (m.run (ys ++ [.recordTracked k x e])).heap.Tracks k i x) :
    m.Recorded (ys ++ [.recordTracked k x e]) k i x := by
  obtain ⟨before, z, after, rfl, hz, rfl, halive⟩ := hx
  refine ⟨before, z, after, e, [], by simp, hz, he, fun zs hzs => ?_, fun zs hzs => ?_⟩
  · rcases List.prefix_concat_iff.1 hzs with rfl | hzs
    · simpa using hal
    · exact halive zs hzs
  · rw [List.prefix_nil] at hzs
    rw [hzs]
    simpa using htracks

/-- The last move of an orderly run, and the invariant before it. -/
theorem Tracking.last
    (ht : m.Tracking l)
    (hl : Legal SweepsInPhase m (ys ++ [y]))
    (ho : m.Orderly l (ys ++ [y])) :
    (m.run ys).Tracking (m.ledger l ys) ∧ (m.run ys).Allows y ∧ (m.run ys).SweepsInPhase y ∧
      (m.run ys).Permits (m.ledger l ys) y := by
  obtain ⟨hys, hy, hsweeps, -⟩ := legal_append.1 hl
  obtain ⟨hoys, hp, -⟩ := orderly_append.1 ho
  exact ⟨ht.run hys hoys, hy, hsweeps, hp⟩

/-- An object that waits to be recorded was handed out and stayed since then. -/
theorem Tracking.handedOut
    {p : Nat × Nat}
    (ht : m.Tracking {})
    (hl : Legal SweepsInPhase m ys)
    (ho : m.Orderly {} ys)
    (hmem : p ∈ (m.ledger {} ys).fresh)
    (hle : (m.run ys).heap.lastSweep ≤ p.2) :
    m.HandedOut ys p.1 p.2 := by
  induction ys using List.reverseRecOn with
  | nil => cases hmem
  | append_singleton ys y ih =>
      obtain ⟨htys, hy, hsweeps, hp⟩ := ht.last hl ho
      have hal := ((ht.run hl ho).waiting p hmem hle).alive
      rw [ledger_append] at hmem
      rcases List.mem_append.1 hmem with hnew | hold
      · obtain ⟨x, hx, rfl⟩ := List.mem_map.1 hnew
        refine ⟨ys, y, [], rfl, Option.mem_toList.1 hx, rfl, fun zs hzs => ?_⟩
        rw [List.prefix_nil] at hzs
        rwa [hzs]
      · have hold := (List.mem_filter.1 hold).1
        refine (ih (legal_append.1 hl).1 (orderly_append.1 ho).1 hold ?_).snoc hal
        have hlast := (htys.proper.clock hy).2
        have hnoted := htys.noted p hold
        rw [run_append] at hle
        rcases hlast with ⟨hsame, -⟩ | hlater
        · exact hsame ▸ hle
        · exact absurd (Nat.lt_of_lt_of_le hlater hle) (Nat.not_lt.2 hnoted)

/-- The object at an address that an open scope tracks is the one that was recorded there. -/
theorem Tracking.recorded
    (ht : m.Tracking {})
    (hnone : ∀ k i x, ¬ m.heap.Tracks k i x)
    (hl : Legal SweepsInPhase m ys)
    (ho : m.Orderly {} ys)
    (hx : (m.run ys).heap.Tracks k i x) :
    m.Recorded ys k i x := by
  induction ys using List.reverseRecOn with
  | nil => exact absurd hx (hnone k i x)
  | append_singleton ys y ih =>
      obtain ⟨htys, hy, hsweeps, hp⟩ := ht.last hl ho
      obtain ⟨hlys, -⟩ := legal_append.1 hl
      obtain ⟨hoys, -⟩ := orderly_append.1 ho
      have hal := (ht.run hl ho).alive k i x hx
      have hx' := hx
      rw [run_append] at hx'
      rcases hp.tracks htys.scopes hx' with hold | ⟨s, e, rfl, he, -⟩
      · exact (ih hlys hoys hold).snoc hal hx
      · obtain ⟨p, hmem, rfl, hle⟩ := hp.2 he
        exact (ht.handedOut hlys hoys hmem (Nat.le_trans he hle)).recorded hle hal hx

/-- Draining a scope frees only what the scope tracks. -/
theorem Tracking.drained
    {d : Nat}
    (ht : m.Tracking l)
    (hp : m.Permits l (.drainScope d))
    (hx : m.Parks (.drainScope d) x) :
    ∃ i, m.heap.Tracks d i x := by
  by_contra hnone
  rw [not_exists] at hnone
  refine (ht.stays (y := .drainScope d) trivial hp hx.2.1 (fun _ _ _ => Move.noConfusion) ?_
    fun _ => Move.noConfusion).2 hx
  rintro k i heq
  exact Move.drainScope.inj heq ▸ hnone i

/-- An object that is recorded now was handed out after any move that freed an object at its
address. -/
theorem Recorded.since
    {before after : List Move}
    (hx : m.Recorded (before ++ y :: after) k i x)
    (hparks : (m.run before).Parks y x)
    (hnone : (m.run before).handsOut y = none) :
    ∃ zs z rest, after = zs ++ z :: rest ∧
      (m.run (before ++ y :: zs)).handsOut z = some x := by
  obtain ⟨past, z, mid, e, rest, heq, hz, -, halive, -⟩ := hx
  generalize mid ++ Move.recordTracked k x e :: rest = tail at heq halive
  have hfreed : (m.run (before ++ [y])).heap.arena.isAllocated x = false := by
    rw [run_append]
    exact hparks.freed
  rcases List.append_eq_append_iff.1 heq with ⟨zs, rfl, hrest⟩ | ⟨zs, rfl, hrest⟩
  · cases zs with
    | nil =>
        obtain ⟨rfl, -⟩ := List.cons.inj hrest
        rw [List.append_nil, hnone] at hz
        cases hz
    | cons w zs =>
        obtain ⟨rfl, rfl⟩ := List.cons.inj hrest
        exact ⟨zs, z, tail, rfl, hz⟩
  · cases zs with
    | nil =>
        obtain ⟨rfl, -⟩ := List.cons.inj hrest
        rw [List.append_nil, hz] at hnone
        cases hnone
    | cons w zs =>
        obtain ⟨rfl, rfl⟩ := List.cons.inj hrest
        have hal := halive (zs ++ [y]) ⟨after, by simp⟩
        rw [show past ++ z :: (zs ++ [y]) = past ++ z :: zs ++ [y] by simp, hfreed] at hal
        cases hal

/-- What open scopes track. In every state of a run, whatever the collector and other workers did
between the moves of a scope, each address that an open scope tracks belongs to the object that was
recorded there: the object was handed out, recorded, and has stayed ever since. No object is tracked
twice. Draining a scope frees only objects that the scope has recorded itself, and none of them is
tracked again before its address was handed out again. -/
theorem tracked_objects_recorded
    (hc : Heap.create memory c = .ok h)
    (hl : Legal SweepsInPhase (start h) ys)
    (ho : (start h).Orderly {} ys) :
    (∀ k i x, ((start h).run ys).heap.Tracks k i x →
        ((start h).run ys).heap.arena.isAllocated x = true ∧ (start h).Recorded ys k i x) ∧
      (∀ k i j n x, ((start h).run ys).heap.Tracks k i x → ((start h).run ys).heap.Tracks j n x →
        k = j ∧ i = n) ∧
      ∀ before d after x, ys = before ++ .drainScope d :: after →
        ((start h).run before).Parks (.drainScope d) x →
          (∃ i, ((start h).run before).heap.Tracks d i x ∧ (start h).Recorded before d i x) ∧
          ∀ k i, ((start h).run ys).heap.Tracks k i x →
            ∃ zs y rest, after = zs ++ y :: rest ∧
              ((start h).run (before ++ .drainScope d :: zs)).handsOut y = some x := by
  have ht := tracking_start hc
  have hrecorded : ∀ zs, zs <+: ys → ∀ k i x, ((start h).run zs).heap.Tracks k i x →
      (start h).Recorded zs k i x := by
    rintro zs ⟨rest, rfl⟩ k i x hx
    exact ht.recorded (not_tracks_start hc) (legal_append.1 hl).1 (orderly_append.1 ho).1 hx
  refine ⟨fun k i x hx => ⟨(ht.run hl ho).alive k i x hx, hrecorded ys (List.prefix_refl ys) k i x hx⟩,
    (ht.run hl ho).apart, ?_⟩
  rintro before d after x rfl hparks
  obtain ⟨hlbefore, -⟩ := legal_append.1 hl
  obtain ⟨hobefore, hp, -⟩ := orderly_append.1 ho
  obtain ⟨i, hi⟩ := (ht.run hlbefore hobefore).drained hp hparks
  refine ⟨⟨i, hi, hrecorded before (List.prefix_append _ _) d i x hi⟩, fun k j hx => ?_⟩
  exact (hrecorded _ (List.prefix_refl _) k j x hx).since hparks rfl

/-- A scope tracks one object, and a second one waits to be recorded when a whole cycle frees both. A
third one is handed out and recorded after the sweeping phase was entered and before slots are zeroed.
Then another worker gets the first cell. The second object is recorded with its old epoch, and its
cell is handed out again to an object that is recorded as well. -/
def interruptedScope : List Move :=
  [.addWorker, .addWorker, .attachCollector, .makeRegistry 3, .enterScope 0 0,
    .carveBlock quarterBlock, .setCursor 0 quarterBlock 0, .claim 0 quarterBlock,
    .recordTracked 0 (Arena.blockBase 0) 0, .claim 0 quarterBlock, .begin, .shadeRoots [],
    .terminate, .finishMarking [], .resurrect, .enterSweep, .claim 0 quarterBlock,
    .recordTracked 0 (Arena.blockBase 0 + 8192) 3, .zeroSlots, .startSweep, .sweepStep 1, .finish,
    .closeCycle, .setCursor 1 quarterBlock 0, .claim 1 quarterBlock,
    .recordTracked 0 (Arena.blockBase 0 + 4096) 0, .setCursor 0 quarterBlock 0,
    .claim 0 quarterBlock, .recordTracked 0 (Arena.blockBase 0 + 4096) 4]

/-- The scope tracks the third object and the one in the second cell, and it frees the latter when it
ends. -/
theorem tracked_objects_recorded_interrupted :
    let m := start (.empty fourBlocks)
    let x := Arena.blockBase 0 + 4096
    (m.run interruptedScope).heap.tracked = [Arena.blockBase 0 + 8192, x] ∧
      (m.run interruptedScope).Parks (.drainScope 0) x ∧
      (∃ i, (m.run interruptedScope).heap.Tracks 0 i x ∧ m.Recorded interruptedScope 0 i x) ∧
      ∀ k i, ¬ (m.run (interruptedScope ++ [.drainScope 0])).heap.Tracks k i x := by
  intro m x
  have hlegal : Legal SweepsInPhase m (interruptedScope ++ [.drainScope 0]) := by decide +kernel
  have horderly : m.Orderly {} (interruptedScope ++ [.drainScope 0]) := by decide +kernel
  have htracked : (m.run interruptedScope).heap.tracked = [Arena.blockBase 0 + 8192, x] := by
    decide +kernel
  have hallocated : (m.run interruptedScope).heap.arena.isAllocated x = true := by decide +kernel
  have hcached : ∃ c, ((m.run interruptedScope).apply (.drainScope 0)).heap.arena.cell? x = some c ∧
      c.header.state = .cached := by
    decide +kernel
  obtain ⟨-, -, hdrained⟩ := tracked_objects_recorded create_fourBlocks hlegal horderly
  obtain ⟨hrecorded, hlater⟩ :=
    hdrained interruptedScope 0 [] x rfl ⟨trivial, hallocated, hcached⟩
  refine ⟨htracked, ⟨trivial, hallocated, hcached⟩, hrecorded, fun k i hx => ?_⟩
  obtain ⟨zs, y, rest, hnil, -⟩ := hlater k i hx
  exact absurd hnil (by simp)

end Machine

end EagerHeap
