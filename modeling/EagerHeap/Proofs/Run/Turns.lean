import EagerHeap.Proofs.Marking.Turns
import EagerHeap.Proofs.Run.Barrier
import EagerHeap.Proofs.Run.Freed
/-!
# Marking beside eager frees

Between the steps of the marker objects are freed, their cells are handed out again, and the list of
gray objects, the barrier buffer and the roots go on naming the old addresses. This does not confuse
the marker: it makes no turn twice in one cycle, every gray object stays on its list, and an object
that is handed out while the cycle runs stays black and is never counted.

Main result: `turns_once`.
-/

namespace EagerHeap

/-- The marker works in this move. -/
def Move.Paints : Move → Prop
  | .shadeRoots _ | .markStep _ | .finishMarking _ | .resurrect => True
  | _ => False

namespace Machine

variable {P : Machine → Move → Prop} {m : Machine} {m₀ : Marker} {y : Move} {ys zs : List Move}
  {x : Nat} {c d : Cell} {col : Color} {L : List Turn} {memory : Nat} {cfg : Config} {h : Heap}

open Heap

/-- The turns that the marker makes in a move. -/
def turns (m : Machine) : Move → List Turn
  | .shadeRoots roots => m.heap.rootTurns roots
  | .markStep n => m.heap.stepTurns n
  | .finishMarking roots => m.heap.rootTurns roots ++ (m.heap.shadeRoots roots).allTurns
  | .resurrect => m.heap.allTurns ++ m.heap.markAll.resurrectTurns
  | _ => []

/-- The turns that the marker makes in a run. -/
def turnsIn : Machine → List Move → List Turn
  | _, [] => []
  | m, y :: ys => m.turns y ++ turnsIn (m.apply y) ys

/-! ### One move -/

/-- The turns of a move in which the marker works are all that it does to colors. -/
theorem turnsOnly_of_paints
    (hy : y.Paints) :
    Marker.TurnsOnly m.heap.marker (m.turns y) (m.apply y).heap.marker := by
  cases y with
  | shadeRoots roots => exact turnsOnly_shadeRoots _ roots
  | markStep n => exact turnsOnly_markStep _ n
  | finishMarking roots => exact (turnsOnly_shadeRoots _ roots).trans (turnsOnly_markAll _)
  | resurrect => exact (turnsOnly_markAll _).trans (turnsOnly_resurrectAll _)
  | _ => cases hy

theorem turns_of_not_paints
    (hy : ¬ y.Paints) :
    m.turns y = [] := by
  cases y <;> first | rfl | exact absurd trivial hy

/-- An object that gets a later color in a move gets it by a turn. -/
theorem Proper.mem_turns
    (hm : m.Proper)
    (hy : m.Allows y)
    (hbegin : y ≠ .begin)
    (hx : m.heap.arena.Object x c)
    (hx' : (m.apply y).heap.arena.Object x d)
    (hlt : c.header.color.rank < col.rank)
    (hle : col.rank ≤ d.header.color.rank) :
    ⟨x, col⟩ ∈ m.turns y := by
  by_cases hpaints : y.Paints
  · rcases (turnsOnly_of_paints hpaints).only x col (Arena.passed_of_cell? hx'.1 hle) with hp | hmem
    · exact absurd (hp.rank c hx.1) (Nat.not_le_of_lt hlt)
    · exact hmem
  · have hsame := (hm.steps hy).sameColor hm.sound hx
      (by cases y <;> simp [Move.Does, Move.Paints] at hpaints ⊢)
      (by cases y <;> simp [Move.Does] at hbegin ⊢)
      (by cases y <;> simp [Move.Does]) hx'
    rw [hsame] at hle
    exact absurd hlt (Nat.not_lt_of_le hle)

/-- No turn is made at the address of a black object. -/
theorem ne_addr_of_black
    (hx : m.heap.arena.Object x c)
    (hcol : c.header.color = .black) :
    ∀ t ∈ m.turns y, t.addr ≠ x := by
  rintro t ht rfl
  by_cases hpaints : y.Paints
  · have hlt := (turnsOnly_of_paints hpaints).fresh t ht .black
      (Arena.passed_of_cell? hx.1 (by rw [hcol]))
    exact absurd hlt (Nat.not_lt_of_le t.color.rank_le_black)
  · rw [turns_of_not_paints hpaints] at ht
    cases ht

/-- While a cycle runs no address falls behind a color that it has passed. -/
theorem Proper.passed
    (hm : m.Proper)
    (hy : m.Allows y)
    (hidle : m.heap.phase ≠ .idle)
    (hp : m.heap.arena.Passed x col) :
    (m.apply y).heap.arena.Passed x col := by
  have hbegin : y ≠ .begin := by
    rintro rfl
    exact hidle hy.2.1
  by_cases hturn : y.Does .turn
  · -- A change of the phase leaves the arena as it is.
    cases y with
    | terminate | enterSweep | finish => exact hp
    | _ => simp [Move.Does] at hturn
  · exact (hm.steps hy).passed hm.sound
      (by cases y <;> simp [Move.Does] at hbegin ⊢) hturn hidle hp

/-- Outside of the work of the marker the number of objects blackened does not change while a
collector stays attached. -/
theorem Proper.marked_apply
    (hm : m.Proper)
    (hy : m.Allows y)
    (hpaints : ¬ y.Paints)
    (hbegin : y ≠ .begin)
    (hattach : y ≠ .attachCollector)
    (hdetach : y ≠ .detachCollector) :
    (m.apply y).heap.marker.marked = m.heap.marker.marked := by
  have hsame : ∀ g : Heap, g.collector.map Collector.marked =
      m.heap.collector.map Collector.marked → g.marker.marked = m.heap.marker.marked :=
    fun g hg => congrArg (·.getD 0) hg
  refine hsame _ ?_
  cases y with
  | begin => exact absurd rfl hbegin
  | attachCollector => exact absurd rfl hattach
  | detachCollector => exact absurd rfl hdetach
  | shadeRoots | markStep | finishMarking | resurrect => exact absurd trivial hpaints
  | terminate | enterSweep | finish => rfl
  | startSweep =>
      change (m.heap.collector.map _).map _ = _
      rw [Option.map_map]
      rfl
  | sweepStep n =>
      cases hk : m.heap.collector with
      | none =>
          have hnone : (m.heap.sweepStep n).collector = none := by
            rw [sweepStep, hk]
            exact hk
          exact congrArg _ hnone
      | some k =>
          rw [hm.collector_sweepStep hy hk]
          rfl
  | closeCycle =>
      change m.heap.closeCycle.2.collector.map _ = _
      unfold closeCycle
      split
      · rfl
      · next k hk =>
          rw [hk]
          rfl
  | _ =>
      refine congrArg _ ((hm.steps hy).sameCycle ?_).collector
      rintro l hl
      simp only [Move.Does] at hl
      rcases hl with rfl | ⟨x, rfl⟩ <;> exact id

/-- While the collector marks, every gray object is on its list. -/
theorem Proper.listed
    (hm : m.Proper)
    (hy : m.Allows y)
    (henter : y ≠ .enterSweep)
    (hmark : m.heap.phase.isMarking = true)
    (hi : m.heap.Listed) :
    (m.apply y).heap.Listed := by
  have hs := hm.sound
  have hbegin : y ≠ .begin := by
    rintro rfl
    rw [hy.2.1] at hmark
    cases hmark
  have hc := hm.isSome_collector (Or.inr (Phase.ne_idle_of_isMarking hmark))
  by_cases hpaints : y.Paints
  · cases y with
    | shadeRoots roots => exact listed_shadeAll hc hs.layout hi _
    | markStep n => exact listed_markStep hc hs.layout hi n
    | finishMarking roots =>
        exact listed_markAll ((isSome_collector_marking _ _).trans hc)
          ((shadeRoots_steps _ roots).recolored.layout hs.layout)
          (listed_shadeAll hc hs.layout hi _)
    | resurrect =>
        have hmarked := markAll_steps m.heap
        refine listed_resurrectAll (hmarked.sound hs) ((isSome_collector_markAll _).trans hc) ?_
          (listed_markAll hc hs.layout hi)
        rw [hmarked.phase (by simp) (by simp)]
        exact hmark
    | _ => cases hpaints
  · by_cases hturn : y.Does .turn
    · cases y with
      | terminate => exact hi
      | enterSweep => exact absurd rfl henter
      | finish =>
          rw [hy.2] at hmark
          cases hmark
      | _ => simp [Move.Does] at hturn
    · exact (hm.steps hy).listed hs
        (by cases y <;> simp [Move.Does, Move.Paints] at hpaints ⊢)
        (by cases y <;> simp [Move.Does] at hbegin ⊢) hturn hmark hi

/-! ### A cycle -/

/-- The turns of a list were made since a cycle has begun, none of them twice, and the collector has
counted the black ones. -/
structure Turned (m₀ : Marker) (L : List Turn) (m : Machine) : Prop where
  nodup : L.Nodup
  marked : m.heap.marker.marked = m₀.marked + blackTurns L
  turns : m.heap.phase ≠ .idle → m₀.Turns L m.heap.marker
  closing : m.heap.phase = .idle → m.stage = .closing


theorem turned_begin
    (hy : m.Allows .begin) :
    Turned (m.apply .begin).heap.marker [] (m.apply .begin) := by
  refine ⟨List.nodup_nil, rfl, fun _ => .refl (fun _ _ => id) rfl, fun hidle => ?_⟩
  have hphase : (m.apply .begin).heap.phase = .mark := congrArg Phase.next hy.2.1
  rw [hphase] at hidle
  cases hidle

theorem marked_begin
    (hy : m.Allows .begin) :
    (m.apply .begin).heap.marker.marked = 0 := by
  obtain ⟨k, hk⟩ := Option.isSome_iff_exists.1 hy.2.2
  change ((m.heap.collector.map _).map _).getD 0 = 0
  rw [hk]
  rfl

/-- No object is gray when a cycle begins. -/
theorem listed_begin (m : Machine) : (m.apply .begin).heap.Listed := by
  intro x c ho hg
  rw [Arena.color_resetColors ho] at hg
  cases hg

/-- The end of a cycle adds the objects blackened in it to the totals. -/
theorem objectsMarked_closeCycle
    (hc : m.heap.collector.isSome = true) :
    (m.apply .closeCycle).heap.totals.objectsMarked =
      m.heap.totals.objectsMarked + m.heap.marker.marked := by
  obtain ⟨k, hk⟩ := Option.isSome_iff_exists.1 hc
  change m.heap.closeCycle.2.totals.objectsMarked = _
  unfold closeCycle totals marker
  rw [hk]
  rfl

theorem Proper.turned
    (hm : m.Proper)
    (hy : m.Allows y)
    (hclose : y ≠ .closeCycle)
    (ht : Turned m₀ L m) :
    Turned m₀ (L ++ m.turns y) (m.apply y) := by
  have hclosing := hm.closing hy hclose ht.closing
  have hbegin : y ≠ .begin := by
    rintro rfl
    exact Stage.noConfusion (hy.1.symm.trans (ht.closing hy.2.1))
  have hdetach : y ≠ .detachCollector := by
    rintro rfl
    exact Stage.noConfusion (hy.1.symm.trans (ht.closing hy.2))
  have hattach : y ≠ .attachCollector := by
    rintro rfl
    obtain ⟨hstage, hidle⟩ := hm.attached hy
    exact Stage.noConfusion (hstage.symm.trans (ht.closing hidle))
  by_cases hidle : m.heap.phase = .idle
  · -- The cycle has ended and is not accounted for, so the collector does not mark.
    have hstage := ht.closing hidle
    have hpaints : ¬ y.Paints := by
      intro hp
      cases y with
      | shadeRoots | finishMarking | markStep => exact Stage.noConfusion (hstage.symm.trans hy)
      | resurrect => exact Stage.noConfusion (hstage.symm.trans hy.1)
      | _ => cases hp
    rw [turns_of_not_paints hpaints, List.append_nil]
    refine ⟨ht.nodup, ?_, fun hne => absurd (hm.phase_idle hy hbegin hidle) hne, hclosing⟩
    rw [hm.marked_apply hy hpaints hbegin hattach hdetach, ht.marked]
  · have hstep : m.heap.marker.Turns (m.turns y) (m.apply y).heap.marker := by
      by_cases hpaints : y.Paints
      · exact (turnsOnly_of_paints hpaints).toTurns
      · rw [turns_of_not_paints hpaints]
        exact .refl (fun _ _ => hm.passed hy hidle)
          (hm.marked_apply hy hpaints hbegin hattach hdetach)
    have hall := (ht.turns hidle).trans hstep
    exact ⟨hall.nodup, hall.marked, fun _ => hall, hclosing⟩

theorem Legal.turned
    (hl : Legal P m ys)
    (hm : m.Proper)
    (hclose : .closeCycle ∉ ys)
    (ht : Turned m₀ L m) :
    Turned m₀ (L ++ m.turnsIn ys) (m.run ys) := by
  induction ys generalizing m L with
  | nil => simpa [turnsIn] using ht
  | cons y ys ih =>
      have hne : y ≠ .closeCycle := fun e => hclose (e ▸ List.mem_cons_self ..)
      rw [turnsIn, ← List.append_assoc]
      exact ih hl.2.2 (hm.apply hl.1) (fun h => hclose (List.mem_cons_of_mem _ h))
        (hm.turned hl.1 hne ht)

theorem Legal.listed
    (hl : Legal P m ys)
    (hm : m.Proper)
    (henter : .enterSweep ∉ ys)
    (hmark : m.heap.phase.isMarking = true)
    (hi : m.heap.Listed) :
    (m.run ys).heap.Listed := by
  induction ys generalizing m with
  | nil => exact hi
  | cons y ys ih =>
      have hne : y ≠ .enterSweep := fun e => henter (e ▸ List.mem_cons_self ..)
      exact ih hl.2.2 (hm.apply hl.1) (fun h => henter (List.mem_cons_of_mem _ h))
        (hm.isMarking_apply hl.1 hne hmark) (hm.listed hl.1 hne hmark hi)

/-- A black object stays black and is not counted, unless a cycle begins or it is freed eagerly. -/
theorem Legal.stays_black
    (hl : Legal P m ys)
    (hm : m.Proper)
    (hbegin : .begin ∉ ys)
    (hx : m.heap.arena.Object x c)
    (hcol : c.header.color = .black)
    (hparks : ¬ m.ParksIn ys x) :
    (∃ hd, (m.run ys).heap.arena.Object x { c with header := hd } ∧ hd.color = .black) ∧
      ∀ t ∈ m.turnsIn ys, t.addr ≠ x := by
  induction ys generalizing m c with
  | nil => exact ⟨⟨c.header, hx, hcol⟩, nofun⟩
  | cons y ys ih =>
      have hne : y ≠ .begin := fun e => hbegin (e ▸ List.mem_cons_self ..)
      have hwhite : c.header.color ≠ .white := by
        rw [hcol]
        exact Color.noConfusion
      rcases hm.stays_rank hl.1 hne hx hwhite with ⟨hd, hobj, hrank⟩ | hpark
      · have hblack : hd.color = .black :=
          Color.rank_injective (Nat.le_antisymm hd.color.rank_le_black (hcol ▸ hrank))
        obtain ⟨hstays, hrest⟩ := ih hl.2.2 (hm.apply hl.1)
          (fun h => hbegin (List.mem_cons_of_mem _ h)) hobj hblack fun h => hparks h.cons
        refine ⟨hstays, fun t ht => ?_⟩
        rcases List.mem_append.1 ht with ht | ht
        · exact ne_addr_of_black hx hcol t ht
        · exact hrest t ht
      · exact absurd ⟨[], y, ys, rfl, hpark⟩ hparks

/-- Marking withstands eager frees and reuse. From the begin of a cycle until its sweep every gray
object is on the list. Whatever becomes gray or black does so by a turn of the marker, and until the
cycle is accounted for no turn is made twice; the black ones are what the account counts. An object
that is handed out while the cycle runs is black. Until the next cycle begins it stays so and is
never counted, unless it is freed eagerly. -/
theorem turns_once
    {before cycle : List Move}
    (hc : Heap.create memory cfg = .ok h)
    (hl : Legal P (start h) (before ++ .begin :: cycle))
    (honce : .begin ∉ cycle) :
    let m := (start h).run (before ++ [.begin])
    (∀ zs, zs <+: cycle → .enterSweep ∉ zs → ∀ x k, (m.run zs).heap.arena.Object x k →
      k.header.color = .gray → x ∈ (m.run zs).heap.grays) ∧
    (∀ zs y rest, cycle = zs ++ y :: rest → ∀ x k k' col, (m.run zs).heap.arena.Object x k →
      (m.run (zs ++ [y])).heap.arena.Object x k' → k.header.color.rank < col.rank →
      col.rank ≤ k'.header.color.rank → ⟨x, col⟩ ∈ (m.run zs).turns y) ∧
    (∀ zs, zs <+: cycle → .closeCycle ∉ zs → (m.turnsIn zs).Nodup ∧
      (m.run zs).heap.marker.marked = blackTurns (m.turnsIn zs)) ∧
    (∀ zs rest, cycle = zs ++ .closeCycle :: rest → .closeCycle ∉ zs →
      (m.run (zs ++ [.closeCycle])).heap.totals.objectsMarked =
        (m.run zs).heap.totals.objectsMarked + blackTurns (m.turnsIn zs)) ∧
    ∀ zs y rest, cycle = zs ++ y :: rest → (m.run zs).heap.phase ≠ .idle →
      ∀ x, (m.run zs).handsOut y = some x →
        ∃ k, (m.run (zs ++ [y])).heap.arena.Object x k ∧ k.header.color = .black ∧
          ∀ ws, ws <+: rest → ¬ (m.run (zs ++ [y])).ParksIn ws x →
            (∃ hd, (m.run (zs ++ y :: ws)).heap.arena.Object x { k with header := hd } ∧
              hd.color = .black) ∧
            ∀ t ∈ (m.run (zs ++ [y])).turnsIn ws, t.addr ≠ x := by
  intro m
  obtain ⟨hbefore, hbegin, -, hcycle⟩ := legal_append.1 hl
  have hstart := hbefore.proper (proper_start hc)
  have hmeq : m = ((start h).run before).apply .begin := run_append _ _ _
  rw [← hmeq] at hcycle
  have hm : m.Proper := hmeq ▸ hstart.apply hbegin
  have hcount : ∀ zs, zs <+: cycle → .closeCycle ∉ zs → Turned m.heap.marker (m.turnsIn zs)
      (m.run zs) := by
    rintro zs ⟨rest, rfl⟩ hclose
    have hturned : Turned m.heap.marker [] m := hmeq ▸ turned_begin hbegin
    exact (legal_append.1 hcycle).1.turned hm hclose hturned
  have hzero : m.heap.marker.marked = 0 := hmeq ▸ marked_begin hbegin
  have hmarked : ∀ zs, zs <+: cycle → .closeCycle ∉ zs →
      (m.run zs).heap.marker.marked = blackTurns (m.turnsIn zs) := by
    intro zs hzs hclose
    rw [(hcount zs hzs hclose).marked, hzero, Nat.zero_add]
  refine ⟨?_, ?_, fun zs hzs hclose => ⟨(hcount zs hzs hclose).nodup, hmarked zs hzs hclose⟩, ?_, ?_⟩
  · rintro zs ⟨rest, rfl⟩ henter x k hk hg
    have hphase : m.heap.phase = .mark := by
      rw [hmeq]
      exact congrArg Phase.next hbegin.2.1
    have hlisted : m.heap.Listed := hmeq ▸ listed_begin _
    exact (legal_append.1 hcycle).1.listed hm henter (by rw [hphase]; rfl) hlisted x k hk hg
  · rintro zs y rest rfl x k k' col hk hk' hlt hle
    obtain ⟨hzs, hy, -⟩ := legal_append.1 hcycle
    rw [run_append] at hk'
    exact (hzs.proper hm).mem_turns hy (fun e => honce (by simp [e])) hk hk' hlt hle
  · rintro zs rest rfl hclose
    obtain ⟨hzs, hy, -⟩ := legal_append.1 hcycle
    have hsome := (hzs.proper hm).isSome_collector
      (Or.inl (by rw [show (m.run zs).stage = .closing from hy]; exact Stage.noConfusion))
    rw [run_append, run_cons, run_nil, objectsMarked_closeCycle hsome,
      hmarked zs (List.prefix_append _ _) hclose]
  · rintro zs y rest rfl hphase x hx
    obtain ⟨hzs, hy, -, hrest⟩ := legal_append.1 hcycle
    have hproper := hzs.proper hm
    obtain ⟨-, k, hk, hfresh, -⟩ := (hproper.handsOut hy hx).fresh hproper.sound
    have hblack : k.header.color = .black := by
      rw [hfresh, Header.fresh, Phase.allocationColor_of_ne_idle hphase]
    simp only [run_append, run_cons, run_nil]
    refine ⟨k, hk, hblack, ?_⟩
    rintro ws ⟨more, rfl⟩ hparks
    exact (legal_append.1 hrest).1.stays_black (hproper.apply hy)
      (fun hmem => honce (by simp [hmem])) hk hblack hparks

/-- A gray object is freed and its cell is handed out again. The list, the barrier buffer and the
roots go on naming it, and nothing is marked. -/
theorem turns_once_reused :
    let s : Span := ⟨⟨13⟩, .scan⟩
    let before : List Move :=
      [.addWorker, .carveBlock s, .setCursor 0 s 0, .claim 0 s, .attachCollector]
    let early : List Move :=
      [.shadeRoots [Arena.start], .write Arena.start 0 Arena.start, .free 0 Arena.start 8192 none]
    let late : List Move :=
      [.markStep 5, .terminate, .finishMarking [Arena.start], .resurrect, .enterSweep, .zeroSlots,
        .startSweep, .sweepStep 4, .finish]
    let m := (start (.empty fourBlocks)).run (before ++ [.begin])
    (∃ k, (m.run (early.take 2)).heap.arena.Object Arena.start k ∧ k.header.color = .gray ∧
      Arena.start ∈ (m.run (early.take 2)).heap.grays) ∧
    (m.turnsIn (early ++ .reuse 0 s :: late)).Nodup ∧
    (m.run (early ++ .reuse 0 s :: late)).heap.marker.marked =
      blackTurns (m.turnsIn (early ++ .reuse 0 s :: late)) ∧
    ∃ k, (m.run (early ++ [.reuse 0 s])).heap.arena.Object Arena.start k ∧
      (∃ hd, (m.run (early ++ .reuse 0 s :: late)).heap.arena.Object Arena.start
        { k with header := hd } ∧ hd.color = .black) ∧
      ∀ t ∈ (m.run (early ++ [.reuse 0 s])).turnsIn late, t.addr ≠ Arena.start := by
  intro s before early late m
  have hlegal : Legal (fun _ _ => True) (start (.empty fourBlocks))
      (before ++ .begin :: (early ++ .reuse 0 s :: late)) := by
    decide +kernel
  obtain ⟨hlisted, -, hcount, -, hborn⟩ := turns_once create_fourBlocks hlegal (by decide)
  have hgray : ∃ k, (m.run (early.take 2)).heap.arena.cell? Arena.start = some k ∧
      k.header.state = .allocated ∧ k.header.color = .gray := by
    decide +kernel
  obtain ⟨k, hk, hal, hcol⟩ := hgray
  obtain ⟨hnodup, hmarked⟩ := hcount _ (List.prefix_refl _) (by decide)
  obtain ⟨k', hk', -, hstays⟩ := hborn early (.reuse 0 s) late rfl (by decide +kernel) Arena.start
    (by decide +kernel)
  have hprefix : early.take 2 <+: early ++ .reuse 0 s :: late :=
    (List.take_prefix 2 early).trans (List.prefix_append early _)
  have hlist := hlisted (early.take 2) hprefix (by decide) Arena.start k ⟨hk, hal⟩ hcol
  refine ⟨⟨k, ⟨hk, hal⟩, hcol, hlist⟩, hnodup, hmarked, k', hk',
    hstays late (List.prefix_refl _) ?_⟩
  rintro ⟨zs, z, rest, heq, hfrees, -⟩
  have hnone : ∀ z ∈ late, ¬ z.FreesEagerly := by
    decide
  exact hnone z (heq ▸ List.mem_append_right zs (List.mem_cons_self ..)) hfrees

end Machine

end EagerHeap
