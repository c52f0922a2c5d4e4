import EagerHeap.Proofs.Sweeping.Visits
import Mathlib.Algebra.GroupWithZero.Nat
/-!
# The sweeper

The sweeper visits the cells of one block after the other, each of them once, and counts what it
frees.

Main results: `sweepBlock_visits`, `sweepBlocks_visits` and `sweepStep_cases`.
-/

namespace EagerHeap

/-- The account of freed cells. -/
def Swept.ofCells (cs : List Cell) : Swept where
  objects := cs.length
  bytes := (cs.map Cell.size).sum

namespace Heap

variable {h g h' : Heap} {x b i n : Nat} {c : Cell} {cs : List Cell} {s : Span}

/-- The queueing of the side records of an unreached object, as the sweeper does it. -/
theorem consultRecords_eq (h : Heap) (x : Nat) :
    h.consultRecords x =
      if h.records.hasFinalizer x then (true, h.resurrect x)
      else
        (false,
          { h with
            records := h.records.queueCleanups x
            arena := h.arena.modifyHeaderAt x (·.clearFlag Header.sideRecord) }) := by
  unfold consultRecords resurrect
  split <;> rfl

/-- What the sweeper decides about an unreached object. -/
theorem isDoomed_cases
    (ho : h.arena.Object x c)
    (hw : c.header.color = .white) :
    ((h.isDoomed c.header x).1 = false ∧ h.records.hasFinalizer x = true ∧
        (h.isDoomed c.header x).2 = h.resurrect x) ∨
      ((h.isDoomed c.header x).1 = true ∧
        ∃ hd, (h.isDoomed c.header x).2.arena.cell? x = some { c with header := hd } ∧
          hd.isUnreached = true ∧ hd.hasFlag Header.sideRecord = false ∧
          ∀ g, Tick (h.isDoomed c.header x).2 (.reclaim x) g → Visit h x [c] g) := by
  have hu : c.header.isUnreached = true := Header.isUnreached_iff.2 ⟨ho.2, hw⟩
  unfold isDoomed
  cases hflag : c.header.hasFlag Header.sideRecord with
  | false =>
      rw [if_neg Bool.false_ne_true]
      exact Or.inr ⟨rfl, c.header, ho.1, hu, hflag, fun g ht => .free ho hw hflag ht⟩
  | true =>
      rw [if_pos rfl, consultRecords_eq]
      cases hf : h.records.hasFinalizer x with
      | true => exact Or.inl ⟨rfl, rfl, rfl⟩
      | false =>
          refine Or.inr ⟨rfl, c.header.clearFlag Header.sideRecord, ?_, ?_, ?_, ?_⟩
          · exact (Arena.cell?_modifyHeaderAt ..).trans (by rw [if_pos rfl, ho.1]; rfl)
          · exact hu
          · exact Header.hasFlag_clearFlag _ _
          · exact fun g ht => .cleanup ho hw hf ht

/-- The visit of one small cell. -/
theorem sweepCell_visit
    (hs : h.Sound)
    (hspan : h.arena.HasSpan b s)
    (hi : i < Block.cellsPer s) :
    ∃ cs, Visit h (Arena.blockBase b + i * s.cellSize) cs (h.sweepCell b i s.cellSize).2 ∧
      cs.length = (if (h.sweepCell b i s.cellSize).1 then 1 else 0) ∧
      ∀ c ∈ cs, c.size = s.cellSize := by
  obtain ⟨hd, hhd, hcell⟩ := hs.layout.cell?_small hspan hi
  unfold sweepCell
  simp only [hhd]
  generalize hx : Arena.blockBase b + i * s.cellSize = x at hcell
  by_cases hu : hd.isUnreached = true
  · obtain ⟨hst, hw⟩ := Header.isUnreached_iff.1 hu
    simp only [hu, if_true]
    rcases isDoomed_cases ⟨hcell, hst⟩ hw with ⟨hkeep, hf, heq⟩ | ⟨hdoom, hd', hcell', hu', hf', hv⟩
    · simp only [hkeep, heq]
      exact ⟨[], .keep ⟨hcell, hst⟩ hw hf, rfl, fun c hc => nomatch hc⟩
    · simp only [hdoom, if_true]
      refine ⟨_, hv _ (.reclaimCell hcell' hu' hf' rfl), rfl, fun c hc => ?_⟩
      rw [List.mem_singleton.1 hc]
  · simp only [hu]
    refine ⟨[], .spare fun c ho hw => hu ?_, rfl, fun c hc => nomatch hc⟩
    obtain ⟨hc, hst⟩ := ho
    rw [hcell] at hc
    obtain rfl := Option.some.inj hc
    exact Header.isUnreached_iff.2 ⟨hst, hw⟩

/-- The visits of consecutive small cells. -/
theorem sweepCells_visits
    (n i : Nat)
    (hs : h.Sound)
    (hspan : h.arena.HasSpan b s)
    (hi : i + n ≤ Block.cellsPer s) :
    ∃ cs, Visits h ((List.range' i n).map fun k => Arena.blockBase b + k * s.cellSize) cs
        (h.sweepCells b s.cellSize i n).2 ∧
      cs.length = (h.sweepCells b s.cellSize i n).1 ∧ ∀ c ∈ cs, c.size = s.cellSize := by
  induction n generalizing h i with
  | zero => exact ⟨[], .nil h, rfl, fun c hc => nomatch hc⟩
  | succ n ih =>
      obtain ⟨cs, hv, hlen, hsize⟩ := sweepCell_visit hs hspan (show i < Block.cellsPer s by omega)
      have hsteps := hv.steps
      obtain ⟨ds, hvs, hlen', hsize'⟩ :=
        ih (i + 1) (hsteps.sound hs) (hsteps.hasSpan hs hspan) (by omega)
      refine ⟨cs ++ ds, .visit hv hvs, ?_, fun c hc => ?_⟩
      · rw [List.length_append, hlen, hlen']
        simp only [sweepCells]
        split <;> omega
      · rcases List.mem_append.1 hc with hc | hc
        · exact hsize c hc
        · exact hsize' c hc

/-- A resolved run is the run that its block heads. -/
theorem getElem?_of_cell?_large
    {a : Arena}
    (hx : a.cell? x = some c)
    (hlarge : c.isLarge = true)
    (hsize : c.size = n * blockSize) :
    a.blocks[c.block]? = some (.large c.header n c.shape) := by
  obtain ⟨-, b, hb, -, hhd, hblock, -, hs, hsh, hl⟩ := Arena.cell?_eq_some_iff.1 hx
  rw [hblock, hb]
  cases b with
  | small s cells q =>
      rw [hlarge] at hl
      cases hl
  | large g m sh =>
      have hg : g = c.header := by
        simp only [Block.header?] at hhd
        split at hhd
        · exact Option.some.inj hhd
        · cases hhd
      have hm : m = n := by
        rw [hsize] at hs
        exact (Nat.eq_of_mul_eq_mul_right (by decide) hs).symm
      have hsh : sh = c.shape := hsh.symm
      rw [hg, hm, hsh]

/-- The visit of the object of a run. -/
theorem sweepRun_visit
    {hd : Header} {sh : Shape}
    (hs : h.Sound)
    (hb : h.arena.blocks[b]? = some (.large hd n sh))
    (hn : 0 < n) :
    ∃ cs, Visit h (Arena.blockBase b) cs (h.sweepRun b hd n).2 ∧
      (h.sweepRun b hd n).1 = Swept.ofCells cs := by
  have hcell := Arena.cell?_of_live_run hs.layout hb hn
  unfold sweepRun
  generalize hx : Arena.blockBase b = x at hcell
  by_cases hu : hd.isUnreached = true
  · obtain ⟨hst, hw⟩ := Header.isUnreached_iff.1 hu
    simp only [hu, hn, and_self, if_true]
    rcases isDoomed_cases ⟨hcell, hst⟩ hw with ⟨hkeep, hf, heq⟩ | ⟨hdoom, hd', hcell', hu', hf', hv⟩
    · simp only [hkeep, heq]
      exact ⟨[], .keep ⟨hcell, hst⟩ hw hf, rfl⟩
    · simp only [hdoom, if_true]
      refine ⟨_, hv _ ?_, ?_⟩
      · subst hx
        exact .reclaimRun (getElem?_of_cell?_large hcell' rfl rfl) hn hu' hf'
      · simp [Swept.ofCells]
  · rw [if_neg (fun hc => hu hc.2)]
    refine ⟨[], .spare fun c ho hw => hu ?_, ?_⟩
    · obtain ⟨hc, hst⟩ := ho
      rw [hcell] at hc
      obtain rfl := Option.some.inj hc
      exact Header.isUnreached_iff.2 ⟨hst, hw⟩
    · simp [Swept.ofCells]

/-- The visits of a block. -/
theorem sweepBlock_visits
    (hs : h.Sound)
    (b : Nat) :
    ∃ cs, Visits h (h.arena.cellsOf b) cs (h.sweepBlock b).2 ∧
      (h.sweepBlock b).1 = Swept.ofCells cs := by
  unfold sweepBlock
  cases hb : h.arena.blocks[b]? with
  | none =>
      have hnone : h.arena.cellsOf b = [] := by
        unfold Arena.cellsOf Arena.outline?
        rw [hb]
        rfl
      rw [hnone]
      exact ⟨[], .nil h, rfl⟩
  | some block =>
      cases block with
      | small s cells q =>
          have hspan := hs.layout.hasSpan_of_getElem? hb
          have hcount := hs.layout.full b s cells q hb
          obtain ⟨cs, hv, hlen, hsize⟩ := sweepCells_visits (Block.cellsPer s) 0 hs hspan
            (Nat.le_of_eq (Nat.zero_add _))
          have hbytes : (cs.map Cell.size).sum = cs.length * s.cellSize := by
            rw [List.map_congr_left hsize, List.map_const', List.sum_replicate_nat]
          rw [Arena.cellsOf_of_hasSpan hspan]
          simp only [hcount]
          refine ⟨cs, ?_, ?_⟩
          · split
            · have hoffer := still_offer (hv.steps.sound hs).layout b
              have hall := hv.append (.offer b hoffer (.nil _))
              rwa [List.append_nil, List.append_nil] at hall
            · exact hv
          · rw [Swept.ofCells, hbytes, hlen]
      | large hd n sh =>
          rw [Arena.cellsOf_of_hasRun (Arena.hasRun_of_getElem? hb)]
          by_cases hn : 0 < n
          · obtain ⟨cs, hv, hacc⟩ := sweepRun_visit hs hb hn
            rw [if_pos hn]
            have hall := Visits.visit hv (.nil _)
            rw [List.append_nil] at hall
            exact ⟨cs, hall, hacc⟩
          · rw [if_neg hn]
            simp only [sweepRun]
            rw [if_neg (fun hc => hn hc.1)]
            exact ⟨[], .nil h, rfl⟩

/-- The visits of consecutive blocks, each with the cells that it had before. -/
theorem sweepBlocks_visits
    (n b : Nat)
    (hs : h.Sound) :
    ∃ cs, Visits h ((List.range' b n).flatMap h.arena.cellsOf) cs (h.sweepBlocks b n).2 ∧
      (h.sweepBlocks b n).1 = Swept.ofCells cs := by
  induction n generalizing h b with
  | zero => exact ⟨[], .nil h, rfl⟩
  | succ n ih =>
      obtain ⟨cs, hv, hacc⟩ := sweepBlock_visits hs b
      obtain ⟨ds, hvs, hacc'⟩ := ih (b + 1) (hv.steps.sound hs)
      have hcells : ∀ i ∈ List.range' (b + 1) n,
          (h.sweepBlock b).2.arena.cellsOf i = h.arena.cellsOf i := by
        intro i hi
        refine Arena.cellsOf_congr (hv.outline fun x hx heq => ?_)
        rw [Arena.block_of_mem_cellsOf hs.layout hx] at heq
        have := (List.mem_range'_1.1 hi).1
        omega
      rw [List.flatMap_def, List.map_congr_left hcells, ← List.flatMap_def] at hvs
      refine ⟨cs ++ ds, ?_, ?_⟩
      · rw [List.range'_succ, List.flatMap_cons]
        exact hv.append hvs
      · simp only [sweepBlocks]
        rw [hacc, hacc']
        simp [Swept.ofCells]

/-! ### Steps of the sweeper -/

/-- Visits leave the collector where it is. -/
theorem SweepsAmong.not_ofCycle
    {xs : List Nat} {l : Act}
    (hl : SweepsAmong xs l) :
    ¬ l.OfCycle := by
  rcases hl with rfl | ⟨y, -, rfl | rfl | rfl⟩ <;> exact id

/-- A step of the sweeper visits the next blocks and notes how far it came. -/
theorem sweepStep_cases
    (hs : h.Sound)
    (n : Nat) :
    (h.collector = none ∧ h.sweepStep n = h) ∨
      ∃ k cs g, h.collector = some k ∧
        Visits h ((List.range' k.sweepNext (min n (k.sweepLimit - k.sweepNext))).flatMap
          h.arena.cellsOf) cs g ∧
        h.sweepStep n = { g with
          collector := some { k with
            sweepNext := k.sweepNext + min n (k.sweepLimit - k.sweepNext)
            swept := k.swept + cs.length
            bytes := k.bytes + (cs.map Cell.size).sum } } := by
  unfold sweepStep
  split
  · next hk => exact Or.inl ⟨hk, rfl⟩
  · next k hk =>
      obtain ⟨cs, hv, hacc⟩ :=
        sweepBlocks_visits (min n (k.sweepLimit - k.sweepNext)) k.sweepNext hs
      refine Or.inr ⟨k, cs, _, hk, hv, ?_⟩
      simp only [hacc, modifyCollector, (hv.steps.sameCycle fun l hl => hl.not_ofCycle).collector, hk]
      rfl

end Heap

end EagerHeap
