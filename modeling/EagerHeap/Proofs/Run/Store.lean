import EagerHeap.Proofs.Heap.Births
import EagerHeap.Proofs.Run.Objects
import Mathlib.Data.List.Infix
/-!
# The heap as a store of objects

An object is handed out at an address where there is none, with a fresh header and with zeros. Until
it is freed it keeps its place, its size and its shape, each of its words has the value that was last
written to it, and its address is not handed out again.

Main result: `handed_out_object`.
-/

namespace EagerHeap

/-- The value of word `i` of the object at an address after a move, if it had the value `old`: the
word is written, or the object is the target of a copy. -/
def Move.overwrite (m : Machine) (x i old : Nat) : Move → Nat
  | .write obj j v => if obj = x ∧ j = i then v else old
  | .copy source target bytes _ =>
      if target = x then m.heap.arena.copied source target bytes i old else old
  | _ => old

namespace Machine

/-- The address that a move hands out, if it hands out an object. -/
def handsOut (m : Machine) : Move → Option Nat
  | .reuse id s => ((Heap.reuse id s).run m.heap).1.toOption.join
  | .claim id s => (m.heap.claim id s).1
  | .carveRun n shape => ((Heap.carveRun n shape).run m.heap).1.toOption.join
  | _ => none

/-- The value that was last written to word `i` of the object at an address in a run, where `v` is
the value before the run. -/
def lastWritten (x i : Nat) : Machine → List Move → Nat → Nat
  | _, [], v => v
  | m, y :: ys, v => lastWritten x i (m.apply y) ys (y.overwrite m x i v)

variable {P : Machine → Move → Prop} {m : Machine} {y : Move} {ys : List Move} {x i : Nat}
  {k : Cell} {memory : Nat} {c : Config} {h : Heap}

open Heap

theorem Proper.handsOut
    (hm : m.Proper)
    (hy : m.Allows y)
    (hx : m.handsOut y = some x) :
    HandsOut m.heap x (m.apply y).heap := by
  cases y with
  | reuse id s =>
      rcases reuse_cases hm.sound id s with ⟨z, hz, ho⟩ | ⟨hnone, -⟩
      · have hxz : some z = some x := by
          rw [← hx, Machine.handsOut, hz]
          rfl
        exact Option.some.inj hxz ▸ ho
      · refine absurd ?_ (hnone x)
        cases hr : ((reuse id s).run m.heap).1 with
        | error e =>
            rw [Machine.handsOut, hr] at hx
            cases hx
        | ok o =>
            rw [Machine.handsOut, hr] at hx
            exact congrArg Except.ok hx
  | claim id s =>
      rcases claim_cases hm.sound id s with ⟨z, hz, ho⟩ | ⟨hnone, -⟩
      · exact Option.some.inj (hz.symm.trans hx) ▸ ho
      · exact absurd (hnone.symm.trans hx) (by simp)
  | carveRun n shape =>
      rcases carveRun_cases hm.sound hy shape with ⟨z, hz, ho⟩ | ⟨hnone, -⟩
      · have hxz : some z = some x := by
          rw [← hx, Machine.handsOut, hz]
          rfl
        exact Option.some.inj hxz ▸ ho
      · rw [Machine.handsOut, hnone] at hx
        cases hx
  | _ => cases hx

/-- An object that is still there after a move is the same object, and its words have the values
that the move wrote. -/
theorem Proper.words
    (hm : m.Proper)
    (hy : m.Allows y)
    (hx : m.heap.arena.Object x k)
    (hx' : (m.apply y).heap.arena.isAllocated x = true) :
    ∃ hd, (m.apply y).heap.arena.Object x { k with header := hd } ∧
      ∀ i < k.size / Word.bytes, (m.apply y).heap.readWord x i =
        y.overwrite m x i (m.heap.readWord x i) := by
  have hl := hm.sound.layout
  have hl' := (hm.apply hy).sound.layout
  have hquiet : (∀ l, y.Does l → ¬ l.Writes) →
      (y.Does (.birth x) → ¬ y.Does (.park x) ∧ ¬ y.Does (.reclaim x)) →
      ∃ hd, (m.apply y).heap.arena.Object x { k with header := hd } ∧
        ∀ i < k.size / Word.bytes, (m.apply y).heap.readWord x i = m.heap.readWord x i := by
    intro hwrites hbirth
    obtain ⟨hd, hobj, hwords⟩ := (hm.steps hy).words hm.sound hx hwrites hbirth hx'
    refine ⟨hd, hobj, fun i hi => ?_⟩
    rw [readWord_eq hl' hobj.1, readWord_eq hl hx.1]
    exact hwords i hi
  have hwritten : ∀ l, Tick m.heap l (m.apply y).heap →
      (∀ i, y.overwrite m x i (m.heap.readWord x i) =
        l.overwrite m.heap x i (m.heap.readWord x i)) →
      (m.apply y).heap.arena.cell? x = some k →
      ∃ hd, (m.apply y).heap.arena.Object x { k with header := hd } ∧
        ∀ i < k.size / Word.bytes, (m.apply y).heap.readWord x i =
          y.overwrite m x i (m.heap.readWord x i) := by
    intro l ht hover hcell
    refine ⟨k.header, ⟨hcell, hx.2⟩, fun i hi => ?_⟩
    rw [hover, readWord_eq hl' hcell, readWord_eq hl hx.1]
    exact ht.read hm.sound hx.1 hx.2 hi
  cases y with
  | write obj j v =>
      obtain ⟨d, hd, hst, hj⟩ := hy
      refine hwritten _ (.store v hd hst hj) (fun i => rfl) ?_
      change (m.heap.writeWord obj j v).arena.cell? x = some k
      rw [arena_writeWord, Arena.cell?_write]
      exact hx.1
  | copy source target bytes shape =>
      obtain ⟨d, hd, hst, rfl, hb⟩ := hy
      refine hwritten _ (.copy source hd hst hb) (fun i => rfl) ?_
      change (m.heap.copyBytes source target bytes d.shape).arena.cell? x = some k
      rw [arena_copyBytes, Arena.cell?_copy]
      exact hx.1
  | _ =>
      refine hquiet (fun l hl hw => ?_) ?_
      · cases l with
        | store => simp [Move.Does] at hl
        | copy => simp [Move.Does] at hl
        | _ => exact hw
      · simp [Move.Does]

/-- While an object is not freed it stays what it is, and each of its words has the value that was
last written to it. -/
theorem Legal.words
    (hl : Legal P m ys)
    (hm : m.Proper)
    (hx : m.heap.arena.Object x k)
    (halive : ∀ zs, zs <+: ys → (m.run zs).heap.arena.isAllocated x = true) :
    ∃ hd, (m.run ys).heap.arena.Object x { k with header := hd } ∧
      ∀ i < k.size / Word.bytes, (m.run ys).heap.readWord x i =
        lastWritten x i m ys (m.heap.readWord x i) := by
  induction ys generalizing m k with
  | nil => exact ⟨k.header, hx, fun _ _ => rfl⟩
  | cons y ys ih =>
      have hnext : (m.apply y).heap.arena.isAllocated x = true :=
        halive [y] (List.prefix_append [y] ys)
      obtain ⟨hd, hobj, hwords⟩ := hm.words hl.1 hx hnext
      obtain ⟨hd', hobj', hwords'⟩ := ih hl.2.2 (hm.apply hl.1) hobj fun zs hzs =>
        halive (y :: zs) (List.cons_prefix_cons.2 ⟨rfl, hzs⟩)
      refine ⟨hd', hobj', fun i hi => ?_⟩
      rw [run_cons, hwords' i hi, hwords i hi, lastWritten]

/-- The life of an object. It is handed out where there is none, with a fresh header; and as long as
it is not freed, it stays what it is, its words have the values that were last written to them, or
zero, and it is not handed out again. -/
theorem handed_out_object
    {before after : List Move}
    (hc : Heap.create memory c = .ok h)
    (hl : Legal P (start h) (before ++ y :: after))
    (hx : ((start h).run before).handsOut y = some x)
    (halive : ∀ zs, zs <+: after →
      ((start h).run (before ++ y :: zs)).heap.arena.isAllocated x = true) :
    ((start h).run before).heap.arena.isAllocated x = false ∧
      ∃ k, ((start h).run (before ++ [y])).heap.arena.Object x k ∧
        k.header.hasFlag Header.sideRecord = false ∧
        (k.header.color =
          if ((start h).run before).heap.phase = .idle then .white else .black) ∧
        (∃ hd, ((start h).run (before ++ y :: after)).heap.arena.Object x
          { k with header := hd }) ∧
        (∀ i < k.size / Word.bytes,
          ((start h).run (before ++ y :: after)).heap.readWord x i =
            lastWritten x i ((start h).run (before ++ [y])) after 0) ∧
        ∀ zs z rest, after = zs ++ z :: rest →
          ((start h).run (before ++ y :: zs)).handsOut z ≠ some x := by
  obtain ⟨hbefore, hy, -, hafter⟩ := legal_append.1 hl
  have hm := hbefore.proper (proper_start hc)
  simp only [run_append, run_cons, run_nil] at halive ⊢
  generalize (start h).run before = m at hm hy hafter hx halive
  obtain ⟨hnone, k, hk, hfresh, hzeros⟩ := (hm.handsOut hy hx).fresh hm.sound
  have hm' := hm.apply hy
  obtain ⟨hd, hobj, hwords⟩ := hafter.words hm' hk halive
  refine ⟨hnone, k, hk, ?_, ?_, ⟨hd, hobj⟩, fun i hi => ?_, ?_⟩
  · rw [hfresh]
    exact Header.hasFlag_fresh _ _
  · rw [hfresh]
    cases m.heap.phase <;> rfl
  · rw [hwords i hi, readWord_eq hm'.sound.layout hk.1, hzeros i hi]
  · rintro zs z rest rfl hz
    obtain ⟨hzs, hal, -⟩ := legal_append.1 hafter
    have hagain := ((hzs.proper hm').handsOut hal hz).fresh (hzs.proper hm').sound
    rw [halive zs (List.prefix_append zs (z :: rest))] at hagain
    cases hagain.1

/-- A large cell is written, freed and reused while a cycle is marked; then it is written again. -/
theorem handed_out_object_reused :
    let s : Span := ⟨⟨13⟩, .scan⟩
    let before : List Move :=
      [.addWorker, .carveBlock s, .setCursor 0 s 0, .claim 0 s, .write Arena.start 3 5,
        .attachCollector, .begin, .shadeRoots [], .free 0 Arena.start 8192 none]
    let after : List Move := [.write Arena.start 4 9, .markStep 1, .write Arena.start 4 6]
    let m := (start (.empty fourBlocks)).run before
    m.heap.arena.isAllocated Arena.start = false ∧
      ∃ k, (m.run [.reuse 0 s]).heap.arena.Object Arena.start k ∧
        k.header.hasFlag Header.sideRecord = false ∧
        (k.header.color = if m.heap.phase = .idle then .white else .black) ∧
        (∃ hd, (m.run (.reuse 0 s :: after)).heap.arena.Object Arena.start
          { k with header := hd }) ∧
        (∀ i < k.size / Word.bytes,
          (m.run (.reuse 0 s :: after)).heap.readWord Arena.start i =
            lastWritten Arena.start i (m.run [.reuse 0 s]) after 0) ∧
        ∀ zs z rest, after = zs ++ z :: rest →
          (m.run (.reuse 0 s :: zs)).handsOut z ≠ some Arena.start := by
  intro s before after m
  have halive : ∀ zs ∈ after.inits, ((start (.empty fourBlocks)).run
      (before ++ .reuse 0 s :: zs)).heap.arena.isAllocated Arena.start = true := by
    decide +kernel
  have hlegal : Legal (fun _ _ => True) (start (.empty fourBlocks))
      (before ++ .reuse 0 s :: after) := by
    decide +kernel
  have hout : ((start (.empty fourBlocks)).run before).handsOut (.reuse 0 s) =
      some Arena.start := by
    decide +kernel
  have hlife := handed_out_object create_fourBlocks hlegal hout
    fun zs hzs => halive zs ((List.mem_inits zs after).2 hzs)
  simp only [run_append] at hlife
  exact hlife

end Machine

end EagerHeap
