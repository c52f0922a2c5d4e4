import EagerHeap.Proofs.Cycle.Swept
import EagerHeap.Proofs.Heap.Consulted
/-!
# What becomes of the single objects

Visits of other addresses leave a cell and its records exactly as they are. Of the objects that are
visited the reached ones are spared, the unreached ones with a finalizer are kept, and the other
unreached ones are freed.

Main results: `Visits.fate` and `Visits.freed`.
-/

namespace EagerHeap

namespace Arena

variable {a : Arena} {x : Nat} {c : Cell}

/-- Whether there is no cell at an address, or a free one. -/
def isVacant (a : Arena) (x : Nat) : Bool := (a.cell? x).all (·.header.state = .free)

theorem isVacant_iff :
    a.isVacant x = true ↔ ∀ c, a.cell? x = some c → c.header.state = .free := by
  unfold isVacant
  cases a.cell? x <;> simp

theorem Object.not_isVacant
    (ho : a.Object x c) :
    a.isVacant x = false := by
  rw [Bool.eq_false_iff]
  intro hv
  have hfree := isVacant_iff.1 hv c ho.1
  rw [ho.2] at hfree
  cases hfree

end Arena

namespace Heap

variable {h g h' : Heap} {x : Nat} {xs ys : List Nat} {c : Cell} {cs : List Cell}

/-- The cell at an address and its attached records are the same in both heaps. -/
structure SameAt (h h' : Heap) (x : Nat) : Prop where
  cell : h'.arena.cell? x = h.arena.cell? x
  records : h'.records.attached.find? x = h.records.attached.find? x

theorem SameAt.refl (h : Heap) (x : Nat) : h.SameAt h x := ⟨rfl, rfl⟩

theorem SameAt.hasFinalizer
    (hsame : h.SameAt g x) :
    g.records.hasFinalizer x = h.records.hasFinalizer x := by
  unfold SideRecords.hasFinalizer
  rw [hsame.records]

theorem SameAt.finalizers
    (hsame : h.SameAt g x) :
    g.records.finalizers x = h.records.finalizers x := by
  unfold SideRecords.finalizers
  rw [hsame.records]

theorem SameAt.cleanups
    (hsame : h.SameAt g x) :
    g.records.cleanups x = h.records.cleanups x := by
  unfold SideRecords.cleanups
  rw [hsame.records]

theorem SameAt.isVacant
    (hsame : h.SameAt g x) :
    g.arena.isVacant x = h.arena.isVacant x := by
  unfold Arena.isVacant
  rw [hsame.cell]

/-- The sweeper would free the object at an address. -/
def isSweepable (h : Heap) (x : Nat) : Bool :=
  h.arena.isUnreached x && !h.records.hasFinalizer x

theorem SameAt.isSweepable
    (hsame : h.SameAt g x) :
    g.isSweepable x = h.isSweepable x := by
  unfold Heap.isSweepable Arena.isUnreached
  rw [hsame.cell, hsame.hasFinalizer]

theorem isSweepable_iff :
    h.isSweepable x = true ↔
      (∃ c, h.arena.Object x c ∧ c.header.color = .white) ∧ h.records.hasFinalizer x = false := by
  unfold isSweepable
  rw [Bool.and_eq_true, Arena.isUnreached_iff, Bool.not_eq_true']

/-! ### Visits of other addresses -/

/-- A visit changes the cell that it visits and no other one. -/
theorem SweepsAmong.cell_eq
    {p : Phase} {l : Act} {o o' : Option Cell}
    (hl : SweepsAmong xs l)
    (hmem : x ∉ xs)
    (hc : CellChange p l x o o') :
    o' = o := by
  have hne : l ≠ .reclaim x ∧ l ≠ .finalize x ∧ l ≠ .cleanup x := by
    obtain ⟨hfinalize, hcleanup, -⟩ := not_sweepsAmong hmem
    refine ⟨fun e => ?_, fun e => hfinalize (e ▸ hl), fun e => hcleanup (e ▸ hl)⟩
    rcases hl with rfl | ⟨y, hy, rfl | rfl | rfl⟩ <;> cases e
    exact hmem hy
  have hkind : l = .still ∨ ∃ y, l = .finalize y ∨ l = .cleanup y ∨ l = .reclaim y := by
    rcases hl with hl | ⟨y, -, hl⟩
    · exact Or.inl hl
    · exact Or.inr ⟨y, hl⟩
  cases hc with
  | absent => rfl
  | carved ha => simp [ha] at hkind
  | born ha => simp [ha] at hkind
  | removed ha => exact absurd ha hne.1
  | kept hc =>
      cases hc with
      | same => rfl
      | reclaim => exact absurd rfl hne.1
      | finalize => exact absurd rfl hne.2.1
      | cleanup => exact absurd rfl hne.2.2
      | _ => simp at hkind

theorem Steps.sameAt
    (hsteps : Steps (SweepsAmong xs) h h')
    (hs : h.Sound)
    (hmem : x ∉ xs) :
    h.SameAt h' x := by
  obtain ⟨hfinalize, hcleanup, hattach, -⟩ := not_sweepsAmong hmem
  refine ⟨?_, hsteps.find?_eq hattach hfinalize hcleanup⟩
  refine (hsteps.induct (R := fun g => g.arena.cell? x = h.arena.cell? x) hs rfl ?_).2
  intro g l g' hg hR hl ht
  exact (hl.cell_eq hmem (ht.cellChange hg x)).trans hR

/-! ### Fates -/

/-- What visits of the given addresses do to an object and its records. -/
inductive Fate (h h' : Heap) (xs : List Nat) (x : Nat) (c : Cell) : Prop
  | spared (hx : x ∈ xs → c.header.color ≠ .white) (hsame : h.SameAt h' x)
  | kept (hx : x ∈ xs) (hw : c.header.color = .white) (hf : h.records.hasFinalizer x = true)
      (hobj : ∃ hd, h'.arena.Object x { c with header := hd } ∧ hd.color = .white)
      (hfinalizers : h'.records.finalizers x = [])
      (hcleanups : h'.records.cleanups x = h.records.cleanups x)
  | freed (hx : x ∈ xs) (hw : c.header.color = .white) (hf : h.records.hasFinalizer x = false)
      (hvacant : h'.arena.isVacant x = true)
      (hnone : h'.records.attached.find? x = none)

/-- Nothing more happens to the object. -/
theorem Fate.before
    (hf : Fate h g xs x c)
    (hsame : g.SameAt h' x)
    (hxs : ∀ y ∈ xs, y ∈ ys)
    (hys : x ∈ ys → x ∈ xs) :
    Fate h h' ys x c := by
  cases hf with
  | spared hx hs =>
      exact .spared (fun hmem => hx (hys hmem))
        ⟨hsame.cell.trans hs.cell, hsame.records.trans hs.records⟩
  | kept hx hw hf hobj hfinalizers hcleanups =>
      refine .kept (hxs x hx) hw hf ?_ (hsame.finalizers.trans hfinalizers)
        (hsame.cleanups.trans hcleanups)
      obtain ⟨hd, ⟨hcell, hst⟩, hcol⟩ := hobj
      exact ⟨hd, ⟨hsame.cell.trans hcell, hst⟩, hcol⟩
  | freed hx hw hf hvacant hnone =>
      exact .freed (hxs x hx) hw hf (hsame.isVacant.trans hvacant) (hsame.records.trans hnone)

/-- Nothing has happened to the object before. -/
theorem Fate.after
    (hf : Fate g h' xs x c)
    (hsame : h.SameAt g x)
    (hxs : ∀ y ∈ xs, y ∈ ys)
    (hys : x ∈ ys → x ∈ xs) :
    Fate h h' ys x c := by
  cases hf with
  | spared hx hs =>
      exact .spared (fun hmem => hx (hys hmem))
        ⟨hs.cell.trans hsame.cell, hs.records.trans hsame.records⟩
  | kept hx hw hf hobj hfinalizers hcleanups =>
      exact .kept (hxs x hx) hw (hsame.hasFinalizer.symm.trans hf) hobj hfinalizers
        (hcleanups.trans hsame.cleanups)
  | freed hx hw hf hvacant hnone =>
      exact .freed (hxs x hx) hw (hsame.hasFinalizer.symm.trans hf) hvacant hnone

/-- An object stays what it is, or leaves a free cell or none. -/
theorem Fate.stays_or_vacant
    (hf : Fate h h' xs x c)
    (ho : h.arena.Object x c) :
    (∃ hd, h'.arena.Object x { c with header := hd }) ∨ h'.arena.isVacant x = true := by
  cases hf with
  | spared hx hsame => exact Or.inl ⟨c.header, hsame.cell.trans ho.1, ho.2⟩
  | kept hx hw hf hobj =>
      obtain ⟨hd, hobj, -⟩ := hobj
      exact Or.inl ⟨hd, hobj⟩
  | freed hx hw hf hvacant => exact Or.inr hvacant

/-- A reclaimed object leaves a free cell or none. -/
theorem Tick.vacant
    (ht : Tick h (.reclaim x) h')
    (hs : h.Sound)
    (ho : h.arena.Object x c) :
    h'.arena.isVacant x = true := by
  have hfreed := ht.freed hs
  have hchange := ht.cellChange hs x
  rw [ho.1] at hchange
  refine Arena.isVacant_iff.2 fun d hd => ?_
  rw [hd] at hchange
  cases hchange with
  | kept hc =>
      cases hc with
      | same =>
          rw [Arena.isAllocated_iff.2 ⟨_, hd, ho.2⟩] at hfreed
          cases hfreed
      | reclaim => rfl

theorem object_resurrect
    (ho : h.arena.Object x c) :
    ∃ hd, (h.resurrect x).arena.Object x { c with header := hd } ∧
      hd.color = c.header.color := by
  rw [arena_resurrect]
  split
  · have hcell := Arena.cell?_modifyHeaderAt h.arena x (·.clearFlag Header.sideRecord) x
    rw [if_pos rfl, ho.1] at hcell
    exact ⟨_, ⟨hcell, ho.2⟩, rfl⟩
  · exact ⟨c.header, ho, rfl⟩

theorem Visit.fate
    (hv : Visit h x cs g)
    (hs : h.Sound)
    (ho : h.arena.Object x c) :
    Fate h g [x] x c := by
  have hmem := List.mem_singleton_self x
  cases hv with
  | spare hx => exact .spared (fun _ => hx c ho) (.refl h x)
  | keep hd hw hf =>
      obtain rfl := hd.unique ho
      obtain ⟨hd, hobj, hcol⟩ := object_resurrect ho
      refine .kept hmem hw hf ⟨hd, hobj, hcol.trans hw⟩ ?_ ?_
      · rw [records_resurrect, SideRecords.finalizers_queueFinalizers, if_pos rfl]
      · rw [records_resurrect, SideRecords.cleanups_queueFinalizers]
  | free hd hw hf ht =>
      obtain rfl := hd.unique ho
      have hnone := hs.recorded.not_flagged hd.1 hf
      refine .freed hmem hw ?_ (ht.vacant hs hd) ?_
      · unfold SideRecords.hasFinalizer
        rw [hnone]
        rfl
      · rw [ht.records id, hnone]
  | cleanup hd hw hf ht =>
      obtain rfl := hd.unique ho
      have hcell := Arena.cell?_modifyHeaderAt h.arena x (·.clearFlag Header.sideRecord) x
      rw [if_pos rfl, hd.1] at hcell
      refine .freed hmem hw hf (ht.vacant ((Tick.cleanup hf).sound hs) ⟨hcell, hd.2⟩) ?_
      rw [ht.records id]
      exact SideRecords.attached_queueCleanups_self _ _

/-- What becomes of an object when cells are visited. -/
theorem Visits.fate
    (hv : Visits h xs cs h')
    (hs : h.Sound)
    (hn : xs.Nodup)
    (ho : h.arena.Object x c) :
    Fate h h' xs x c := by
  induction hv with
  | nil h => exact .spared (fun hx => nomatch hx) (.refl h x)
  | @offer h h' xs cs b hst _ ih =>
      have hoffered : Steps (SweepsAmong []) h (h.offer b) := hst.steps.mono fun l hl => Or.inl hl
      have hsame := hoffered.sameAt hs (x := x) List.not_mem_nil
      exact (ih (hst.steps.sound hs) hn ⟨hsame.cell.trans ho.1, ho.2⟩).after hsame
        (fun _ hy => hy) id
  | @visit h g h' z xs cs ds hv hrest ih =>
      obtain ⟨hz, hn⟩ := List.nodup_cons.1 hn
      have hg := hv.steps.sound hs
      by_cases hxz : x = z
      · subst hxz
        refine (hv.fate hs ho).before (hrest.steps.sameAt hg hz) ?_ fun _ =>
          List.mem_singleton_self x
        intro y hy
        rw [List.mem_singleton.1 hy]
        exact List.mem_cons_self ..
      · have hsame := hv.steps.sameAt hs (x := x) fun hm => hxz (List.mem_singleton.1 hm)
        exact (ih hg hn ⟨hsame.cell.trans ho.1, ho.2⟩).after hsame
          (fun y hy => List.mem_cons_of_mem _ hy) fun hm => (List.mem_cons.1 hm).resolve_left hxz

/-- An object is freed exactly if it is visited and sweepable. -/
theorem Visits.isVacant_iff
    (hv : Visits h xs cs h')
    (hs : h.Sound)
    (hn : xs.Nodup)
    (ho : h.arena.Object x c) :
    h'.arena.isVacant x = true ↔ x ∈ xs ∧ h.isSweepable x = true := by
  rw [isSweepable_iff]
  cases hv.fate hs hn ho with
  | spared hx hsame =>
      rw [hsame.isVacant, ho.not_isVacant]
      refine iff_of_false Bool.false_ne_true ?_
      rintro ⟨hmem, ⟨d, hd, hw⟩, -⟩
      exact hx hmem (hd.unique ho ▸ hw)
  | kept hx hw hf hobj =>
      obtain ⟨hd, hobj, -⟩ := hobj
      rw [hobj.not_isVacant, hf]
      exact iff_of_false Bool.false_ne_true fun h => Bool.noConfusion h.2.2
  | freed hx hw hf hvacant => exact iff_of_true hvacant ⟨hx, ⟨c, ho, hw⟩, hf⟩

/-! ### The list of what is freed -/

theorem Visit.freed
    (hv : Visit h x cs g)
    (hs : h.Sound) :
    (∀ c ∈ cs, h.arena.cell? c.addr = some c) ∧ cs.map Cell.addr = [x].filter h.isSweepable := by
  have hone : ∀ c, h.arena.Object x c → c.header.color = .white →
      h.records.hasFinalizer x = false →
      (∀ d ∈ [c], h.arena.cell? d.addr = some d) ∧
        [c].map Cell.addr = [x].filter h.isSweepable := by
    intro c ho hw hf
    have haddr := Arena.addr_of_cell? ho.1
    refine ⟨fun d hd => ?_, ?_⟩
    · obtain rfl := List.mem_singleton.1 hd
      rw [haddr]
      exact ho.1
    · rw [List.filter_cons_of_pos (isSweepable_iff.2 ⟨⟨c, ho, hw⟩, hf⟩), List.map_singleton, haddr]
      rfl
  have hnone : h.isSweepable x ≠ true →
      ([] : List Cell).map Cell.addr = [x].filter h.isSweepable := by
    intro hx
    rw [List.filter_cons_of_neg hx]
    rfl
  cases hv with
  | spare hspare =>
      refine ⟨fun c hc => (nomatch hc), hnone fun hx => ?_⟩
      obtain ⟨⟨c, ho, hw⟩, -⟩ := isSweepable_iff.1 hx
      exact hspare c ho hw
  | keep ho hw hf =>
      refine ⟨fun c hc => (nomatch hc), hnone fun hx => ?_⟩
      rw [(isSweepable_iff.1 hx).2] at hf
      cases hf
  | free ho hw hf ht =>
      refine hone _ ho hw ?_
      unfold SideRecords.hasFinalizer
      rw [hs.recorded.not_flagged ho.1 hf]
      rfl
  | cleanup ho hw hf ht => exact hone _ ho hw hf

/-- The cells that are freed are those of the sweepable objects, each of them once. -/
theorem Visits.freed
    (hv : Visits h xs cs h')
    (hs : h.Sound)
    (hn : xs.Nodup) :
    (∀ c ∈ cs, h.arena.cell? c.addr = some c) ∧ cs.map Cell.addr = xs.filter h.isSweepable := by
  induction hv with
  | nil h => exact ⟨fun c hc => (nomatch hc), rfl⟩
  | @offer h h' xs cs b hst _ ih =>
      have hoffered : Steps (SweepsAmong []) h (h.offer b) := hst.steps.mono fun l hl => Or.inl hl
      have hsame : ∀ x, h.SameAt (h.offer b) x := fun x => hoffered.sameAt hs List.not_mem_nil
      obtain ⟨hcells, hlist⟩ := ih (hst.steps.sound hs) hn
      refine ⟨fun c hc => (hsame _).cell.symm.trans (hcells c hc), hlist.trans ?_⟩
      exact List.filter_congr fun y _ => (hsame y).isSweepable
  | @visit h g h' z xs cs ds hv _ ih =>
      obtain ⟨hz, hn⟩ := List.nodup_cons.1 hn
      obtain ⟨hcells, hlist⟩ := hv.freed hs
      obtain ⟨hcells', hlist'⟩ := ih (hv.steps.sound hs) hn
      have hsame : ∀ y ∈ xs, h.SameAt g y := fun y hy =>
        hv.steps.sameAt hs fun hm => hz (List.mem_singleton.1 hm ▸ hy)
      have hfilter : xs.filter g.isSweepable = xs.filter h.isSweepable :=
        List.filter_congr fun y hy => (hsame y hy).isSweepable
      refine ⟨fun c hc => ?_, ?_⟩
      · rcases List.mem_append.1 hc with hc | hc
        · exact hcells c hc
        · have hmem : c.addr ∈ ds.map Cell.addr := List.mem_map_of_mem hc
          rw [hlist'] at hmem
          exact (hsame _ (List.mem_filter.1 hmem).1).cell.symm.trans (hcells' c hc)
      · rw [List.map_append, hlist, hlist', hfilter, ← List.filter_append]
        rfl

end Heap

end EagerHeap
