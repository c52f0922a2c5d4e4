import EagerHeap.Proofs.Heap.Consulted
import EagerHeap.Proofs.Heap.Obtaining
import EagerHeap.Proofs.Heap.Outstanding
/-!
# Objects that can be freed eagerly

If eager free is on for every size of small cells, an object in a small cell can be freed unless it
has a side record. Freeing one object leaves this to the others, so a list of such objects, each of
which occurs once, is freed one after the other.

Main results: `Disposable.of_steps` and `declined_eq_nil`.
-/

namespace EagerHeap

/-- Eager free is on for every size of small cells. -/
def Config.FreesSmall (c : Config) : Prop :=
  c.eagerFree = true ∧ c.minFreeSize ≤ 16 ∧ c.maxFreeSize = SizeClass.greatest

namespace Heap

/-- The address is that of an object in a small cell that has no side record. -/
structure Disposable (h : Heap) (x : Nat) : Prop where
  alive : h.arena.isAllocated x = true
  small : ∃ s, h.arena.HasSpan ((x - Arena.start) / blockSize) s
  bare : h.records.attached.find? x = none

variable {h h' : Heap} {id x : Nat} {c : Cell} {r : SideRecord} {addrs : List Nat} {P : Act → Prop}

/-- The block of a small cell has a span. -/
theorem exists_span
    (hl : h.arena.Layout)
    (hx : h.arena.cell? x = some c)
    (hsmall : c.isLarge = false) :
    ∃ s, h.arena.HasSpan ((x - Arena.start) / blockSize) s := by
  obtain ⟨-, -, -, -, -, hblock, -⟩ := Arena.cell?_eq_some_iff.1 hx
  rw [← hblock]
  rcases hl.cell?_cases hx with ⟨s, hs, -⟩ | ⟨-, -, -, -, -, -, -, -, hlarge, -⟩
  · exact ⟨s, hs⟩
  · rw [hsmall] at hlarge
    cases hlarge

theorem find?_eq_none_of_attached
    (hs : h.Sound)
    (hnone : ∀ r, ¬ h.records.Attached x r) :
    h.records.attached.find? x = none := by
  cases hfind : h.records.attached.find? x with
  | none => rfl
  | some rs =>
      obtain ⟨r, hr⟩ := List.exists_mem_of_ne_nil rs (hs.recorded.live x rs hfind).1
      refine absurd ?_ (hnone r)
      rw [SideRecords.Attached, hfind]
      exact hr

/-- While the object is there and no record is attached to it, it can be freed. -/
theorem Disposable.of_steps
    (hd : h.Disposable x)
    (hs : h.Sound)
    (hsteps : Steps P h h')
    (hattach : ∀ kind, ¬ P (.attach x kind))
    (hx : h'.arena.isAllocated x = true) :
    h'.Disposable x := by
  obtain ⟨s, hspan⟩ := hd.small
  refine ⟨hx, ⟨s, hsteps.hasSpan hs hspan⟩, find?_eq_none_of_attached (hsteps.sound hs) fun r hr => ?_⟩
  have hbefore := hsteps.attached_of hattach hr
  rw [SideRecords.Attached, hd.bare] at hbefore
  cases hbefore

/-- Every check of an eager free with the size of the cell succeeds. -/
theorem Disposable.freeOwned
    (hd : h.Disposable x)
    (hs : h.Sound)
    (hc : h.config.FreesSmall)
    (id : Nat) :
    (h.freeOwned id x).1 = none := by
  obtain ⟨c, hx, hst⟩ := Arena.isAllocated_iff.1 hd.alive
  obtain ⟨t, hspan⟩ := hd.small
  obtain ⟨hcontains, -, -, -, -, hblock, -⟩ := Arena.cell?_eq_some_iff.1 hx
  rw [← hblock] at hspan
  have hsize : c.size = t.cellSize := by
    rcases hs.layout.cell?_cases hx with ⟨s, hs, -, -, hsize, -⟩ | ⟨n, sh, hrun, -⟩
    · rw [hsize, hs.unique hspan]
    · exact absurd ⟨sh, hrun⟩ hspan.not_hasRun
  obtain ⟨cells, q, hb, -⟩ := hs.layout.exists_getElem?_of_hasSpan hspan
  obtain ⟨hleast, hgreatest⟩ := t.cellSize_bounds
  obtain ⟨hon, hmin, hmax⟩ := hc
  have hflag : c.header.hasFlag Header.sideRecord = false := by
    rw [Bool.eq_false_iff]
    intro hflagged
    rw [hs.recorded.flagged x c hx, hd.bare] at hflagged
    cases hflagged
  have hfreeable : h.freeable x c.size none = .ok (t, ⟨x, c.block, c.index⟩) := by
    rw [freeable, if_neg (by simp [hon]), if_neg (by simp [hcontains]), if_neg (by omega),
      if_neg (by omega), hx]
    simp [hb, Block.span?, hflag, hst]
  rw [Heap.freeOwned, hx, Option.map_some, Option.getD_some, free, hfreeable]

/-- Objects that can be freed, each of which occurs once among the addresses, are all freed. -/
theorem declined_eq_nil
    (hs : h.Sound)
    (hc : h.config.FreesSmall)
    (honce : addrs.Pairwise fun x y => x ≠ 0 → x ≠ y)
    (hd : ∀ x ∈ addrs, x ≠ 0 → h.Disposable x) :
    h.declined id addrs = [] := by
  induction addrs generalizing h with
  | nil => rfl
  | cons addr rest ih =>
      obtain ⟨hfirst, hrest⟩ := List.pairwise_cons.1 honce
      cases addr with
      | zero => exact ih hs hc hrest fun x hx => hd x (List.mem_cons_of_mem _ hx)
      | succ n =>
          have h0 := Nat.succ_ne_zero n
          have hfreed := (hd (n + 1) (List.mem_cons_self ..) h0).freeOwned hs hc id
          have hsteps : Steps (fun l => l = .still ∨ l = .park (n + 1)) h
              (h.freeOwned id (n + 1)).2 := free_steps hs id (n + 1) _ none
          rw [declined, hfreed]
          · refine ih (hsteps.sound hs) (hsteps.config ▸ hc) hrest fun x hx hne => ?_
            have hbefore := hd x (List.mem_cons_of_mem _ hx) hne
            obtain ⟨d, hd, hst⟩ := Arena.isAllocated_iff.1 hbefore.alive
            obtain ⟨k, hk, hst'⟩ := hsteps.stays hs hd hst (by simpa using (hfirst x hx h0).symm)
              (by simp)
            exact hbefore.of_steps hs hsteps (by simp) (Arena.isAllocated_iff.2 ⟨_, hk, hst'⟩)
          · exact h0

end Heap

end EagerHeap
