import EagerHeap.Proofs.Heap.Consulted
import EagerHeap.Proofs.Run.Finalizers
import EagerHeap.Proofs.Run.Store
/-!
# Side records in a run

In every state of a run the flag of an object says whether the table has records for it, and it has
them for objects only. So an object with records is not freed eagerly, it is not swept unless its
records were consulted, and an object that is handed out has no record but those that are attached to
it later.

Main result: `side_records_agree`.
-/

namespace EagerHeap

namespace Heap

/-- A cell is flagged exactly if the table holds records for it and it holds an object, and the table
has no other keys. -/
structure RecordsAgree (h : Heap) : Prop where
  flagged : ∀ x c, h.arena.cell? x = some c →
    (c.header.hasFlag Header.sideRecord = true ↔
      ∃ rs, h.records.attached.find? x = some rs ∧ rs ≠ [] ∧ c.header.state = .allocated)
  keys : ∀ x rs, h.records.attached.find? x = some rs →
    ∃ c, h.arena.Object x c ∧ c.header.hasFlag Header.sideRecord = true

theorem Sound.recordsAgree
    {h : Heap}
    (hs : h.Sound) :
    h.RecordsAgree := by
  constructor
  · intro x c hx
    rw [hs.recorded.flagged x c hx, Option.isSome_iff_exists]
    constructor
    · rintro ⟨rs, hfind⟩
      obtain ⟨hne, hal⟩ := hs.recorded.live x rs hfind
      obtain ⟨d, hd, hst⟩ := Arena.isAllocated_iff.1 hal
      obtain rfl := Option.some.inj (hx.symm.trans hd)
      exact ⟨rs, hfind, hne, hst⟩
    · rintro ⟨rs, hfind, -⟩
      exact ⟨rs, hfind⟩
  · intro x rs hfind
    obtain ⟨c, hobj⟩ := Arena.exists_object (hs.recorded.live x rs hfind).2
    exact ⟨c, hobj, (hs.recorded.flagged x c hobj.1).2 (by rw [hfind]; rfl)⟩

end Heap

namespace Machine

variable {P : Machine → Move → Prop} {m : Machine} {y : Move} {ys zs : List Move} {x : Nat}
  {c : Cell} {r : SideRecord} {rs : List SideRecord} {memory : Nat} {cfg : Config} {h : Heap}

open Heap

/-- A move of the run attaches the record to the object at an address. -/
def AttachesIn (m : Machine) (ys : List Move) (x : Nat) (r : SideRecord) : Prop :=
  ∃ zs rest, ys = zs ++ .attach x r.kind :: rest ∧
    (m.run zs).heap.arena.isAllocated x = true ∧ r.id = (m.run zs).heap.records.next

/-- What a move may do to an object with records: it stays and no record is lost, or the sweeper
frees it after it queued its records. -/
def Consults (m : Machine) (y : Move) (x : Nat) (rs : List SideRecord) (c : Cell) : Prop :=
  ¬ m.Parks y x ∧ (m.apply y).heap.Consults x rs c ∧
    ((m.apply y).heap.arena.isAllocated x = false → ∃ n, y = .sweepStep n)

theorem not_does_cleanup
    (hsweep : ∀ n, y ≠ .sweepStep n)
    (x : Nat) :
    ¬ y.Does (.cleanup x) ∧ ¬ y.Does (.reclaim x) := by
  cases y <;> simp [Move.Does] at hsweep ⊢

/-- A move that takes no batch and does not sweep loses no record. -/
theorem Proper.keepsRecords
    (hm : m.Proper)
    (hy : m.Allows y)
    (hsweep : ∀ n, y ≠ .sweepStep n)
    (hfind : m.heap.records.attached.find? x = some rs) :
    (m.apply y).heap.KeepsRecords x rs := by
  have hsteps := hm.steps hy
  by_cases hbatch : y.Does .batch
  · -- Taking or ending a batch leaves the table alone.
    have honly : ∀ l, y.Does l → l = .batch := by
      cases y <;> simp [Move.Does] at hbatch ⊢
    have hsame := hsteps.find?_eq (x := x) (fun kind hl => by cases honly _ hl)
      (fun hl => by cases honly _ hl) fun hl => by cases honly _ hl
    exact keepsRecords_of_find? (hsame.trans hfind)
  · exact hsteps.keeps_records hbatch (not_does_cleanup hsweep x).1 (keepsRecords_of_find? hfind)

/-- An object with records is not freed eagerly, and it is swept only after its records were
consulted. -/
theorem Proper.consults
    (hm : m.Proper)
    (hy : m.Allows y)
    (hx : m.heap.arena.Object x c)
    (hfind : m.heap.records.attached.find? x = some rs) :
    m.Consults y x rs c := by
  obtain ⟨hne, -⟩ := hm.sound.recorded.live x rs hfind
  obtain ⟨r, hr⟩ := List.exists_mem_of_ne_nil rs hne
  have hattached : m.heap.records.Attached x r := by
    rw [SideRecords.Attached, hfind]
    exact hr
  have hpark := hm.not_parks (y := y) hattached
  refine ⟨hpark, ?_⟩
  by_cases hsweep : ∃ n, y = .sweepStep n
  · obtain ⟨n, rfl⟩ := hsweep
    refine ⟨?_, fun _ => ⟨n, rfl⟩⟩
    change (m.heap.sweepStep n).Consults x rs c
    rcases sweepStep_cases hm.sound n with ⟨-, heq⟩ | ⟨k, cs, g, -, hv, heq⟩
    · rw [heq]
      exact Or.inl ⟨⟨c.header, hx⟩, keepsRecords_of_find? hfind⟩
    · rw [heq]
      exact hv.consulted hm.sound (Arena.nodup_cellsOf_range hm.sound.layout _ _) hx hfind
  · have hnot : ∀ n, y ≠ .sweepStep n := fun n heq => hsweep ⟨n, heq⟩
    obtain ⟨hd, hobj⟩ :=
      (hm.stays hy hx (not_does_cleanup hnot x).2).resolve_right hpark
    refine ⟨Or.inl ⟨⟨hd, hobj⟩, hm.keepsRecords hy hnot hfind⟩, fun hfree => ?_⟩
    rw [hobj.isAllocated] at hfree
    cases hfree

/-- An object that is handed out has no records and no flag. -/
theorem Proper.handsOut_bare
    (hm : m.Proper)
    (hy : m.Allows y)
    (hx : m.handsOut y = some x) :
    m.heap.records.attached.find? x = none ∧
      (m.apply y).heap.records.attached.find? x = none ∧
      ∃ c, (m.apply y).heap.arena.Object x c ∧
        c.header.hasFlag Header.sideRecord = false := by
  obtain ⟨hnone, k, hk, hfresh, -⟩ := (hm.handsOut hy hx).fresh hm.sound
  have hflag : k.header.hasFlag Header.sideRecord = false := by
    rw [hfresh]
    exact Header.hasFlag_fresh _ _
  exact ⟨hm.sound.recorded.find?_eq_none hnone,
    (hm.apply hy).sound.recorded.not_flagged hk.1 hflag, k, hk, hflag⟩

/-- A record of an object was attached before, or the move attaches it. -/
theorem Proper.attached_of
    (hm : m.Proper)
    (hy : m.Allows y)
    (ha : (m.apply y).heap.records.Attached x r) :
    m.heap.records.Attached x r ∨
      y = .attach x r.kind ∧ m.heap.arena.isAllocated x = true ∧
        r.id = m.heap.records.next := by
  by_cases hattach : ∃ kind, y = .attach x kind
  · obtain ⟨kind, rfl⟩ := hattach
    change (m.heap.attachRecord x kind).2.records.Attached x r at ha
    by_cases hx : m.heap.arena.isAllocated x = true
    · rw [SideRecords.Attached, (attachRecord_eq kind hx).2, SideRecords.attached_attach_self,
        Option.getD_some] at ha
      rcases List.mem_append.1 ha with ha | ha
      · exact Or.inl ha
      · obtain rfl := List.mem_singleton.1 ha
        exact Or.inr ⟨rfl, hx, rfl⟩
    · rw [attachRecord, if_neg hx] at ha
      exact Or.inl ha
  · refine Or.inl ((hm.steps hy).attached_of (fun kind hl => hattach ⟨kind, ?_⟩) ha)
    cases y <;> simp [Move.Does] at hl
    rw [hl.1, hl.2]

/-- A record of an object at the end of a run was there at its beginning, or the run has attached
it. -/
theorem Legal.attached_of
    (hl : Legal P m ys)
    (hm : m.Proper)
    (ha : (m.run ys).heap.records.Attached x r) :
    m.heap.records.Attached x r ∨ m.AttachesIn ys x r := by
  induction ys generalizing m with
  | nil => exact Or.inl ha
  | cons y ys ih =>
      rcases ih hl.2.2 (hm.apply hl.1) ha with ha | ⟨zs, rest, rfl, hal, hid⟩
      · refine (hm.attached_of hl.1 ha).imp_right ?_
        rintro ⟨rfl, hal, hid⟩
        exact ⟨[], ys, rfl, hal, hid⟩
      · exact Or.inr ⟨y :: zs, rest, rfl, hal, hid⟩

/-- Flags and records agree. In every state of a run a cell is flagged exactly if the table holds
records for it, and only objects have records. Whatever happens next, an object with records does not
get on a free list, and it is not swept without consulting its records; what is handed out has neither
records nor a flag. And the records of an object were attached after it was handed out. -/
theorem side_records_agree
    (hc : Heap.create memory cfg = .ok h)
    (hl : Legal P (start h) ys) :
    let m := (start h).run ys
    m.heap.RecordsAgree ∧
      (∀ y x c rs, m.Allows y → m.heap.arena.Object x c →
        m.heap.records.attached.find? x = some rs → m.Consults y x rs c) ∧
      (∀ y x, m.Allows y → m.handsOut y = some x →
        m.heap.records.attached.find? x = none ∧
          (m.apply y).heap.records.attached.find? x = none ∧
          ∃ c, (m.apply y).heap.arena.Object x c ∧
            c.header.hasFlag Header.sideRecord = false) ∧
      ∀ before y after x r, ys = before ++ y :: after →
        ((start h).run before).handsOut y = some x → m.heap.records.Attached x r →
          ((start h).run (before ++ [y])).AttachesIn after x r := by
  have hm := hl.proper (proper_start hc)
  refine ⟨hm.sound.recordsAgree, fun y x c rs hy hx hfind => hm.consults hy hx hfind,
    fun y x hy hx => hm.handsOut_bare hy hx, ?_⟩
  rintro before y after x r rfl hx ha
  obtain ⟨hbefore, hy, -, hafter⟩ := legal_append.1 hl
  have hmb := hbefore.proper (proper_start hc)
  rw [run_append, run_cons] at ha
  rw [run_append, run_cons, run_nil]
  refine (hafter.attached_of (hmb.apply hy) ha).resolve_left fun hattached => ?_
  rw [SideRecords.Attached, (hmb.handsOut_bare hy hx).2.1] at hattached
  cases hattached

/-- An object with a finalizer and a cleanup is kept by the sweeper and freed in the next cycle; then
its cell is handed out again, and a cleanup is attached to the new object. -/
theorem side_records_agree_reused :
    let cycle : List Move := [.begin, .shadeRoots [], .terminate, .finishMarking [], .resurrect,
      .enterSweep, .zeroSlots, .startSweep, .sweepStep 1, .finish, .closeCycle]
    let before : List Move :=
      [.addWorker, .carveBlock quarterBlock, .setCursor 0 quarterBlock 0, .claim 0 quarterBlock,
        .attach Arena.start .finalizer, .attach Arena.start .cleanup,
        .free 0 Arena.start 4096 none, .attachCollector] ++ cycle ++ [.startBatch, .fire, .endBatch]
          ++ cycle ++ [.setCursor 0 quarterBlock 0]
    let ys := before ++ .claim 0 quarterBlock :: [.attach Arena.start .cleanup]
    let m := (start (.empty fourBlocks)).run ys
    m.heap.RecordsAgree ∧
      m.Consults (.free 0 Arena.start 4096 none) Arena.start [⟨2, .cleanup⟩]
        ⟨0, 0, Arena.start, 4096, .scan, false, ⟨.allocated, .white, 1⟩⟩ ∧
      (m.handsOut (.claim 0 quarterBlock) = some (Arena.start + 4096) ∧
        m.heap.records.attached.find? (Arena.start + 4096) = none) ∧
      ((start (.empty fourBlocks)).run (before ++ [.claim 0 quarterBlock])).AttachesIn
        [.attach Arena.start .cleanup] Arena.start ⟨2, .cleanup⟩ := by
  intro cycle before ys
  have hlegal : Legal (fun _ _ => True) (start (.empty fourBlocks)) ys := by
    decide +kernel
  obtain ⟨hagree, hconsults, hbare, hsince⟩ := side_records_agree create_fourBlocks hlegal
  have hfind : ((start (.empty fourBlocks)).run ys).heap.records.attached.find? Arena.start =
      some [⟨2, .cleanup⟩] := by
    decide +kernel
  have hcell : ((start (.empty fourBlocks)).run ys).heap.arena.cell? Arena.start =
      some ⟨0, 0, Arena.start, 4096, .scan, false, ⟨.allocated, .white, 1⟩⟩ := by
    decide +kernel
  have hnext : ((start (.empty fourBlocks)).run ys).handsOut (.claim 0 quarterBlock) =
      some (Arena.start + 4096) := by
    decide +kernel
  have hout : ((start (.empty fourBlocks)).run before).handsOut (.claim 0 quarterBlock) =
      some Arena.start := by
    decide +kernel
  have hattached : ((start (.empty fourBlocks)).run ys).heap.records.Attached Arena.start
      ⟨2, .cleanup⟩ := by
    rw [SideRecords.Attached, hfind]
    exact List.mem_singleton_self _
  have hkept := hconsults (.free 0 Arena.start 4096 none) _ _ _ trivial ⟨hcell, rfl⟩ hfind
  have hclean := hbare (.claim 0 quarterBlock) _ trivial hnext
  exact ⟨hagree, hkept, ⟨hnext, hclean.1⟩, hsince before _ _ _ _ rfl hout hattached⟩

end Machine

end EagerHeap
