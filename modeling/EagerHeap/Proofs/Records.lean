import EagerHeap.SideRecord
import Mathlib.Data.List.Perm.Basic
/-!
# The table and the queue of side records

What queueing the finalizers or the cleanups of an object does to the records of that object, to
those of other objects, to the queue and to the objects that are kept alive.
-/

namespace EagerHeap

/-- The first occurrence of an element is all that is removed; the order is lost. -/
theorem perm_removeFirst
    {a : Nat} {l : List Nat}
    (h : a ∈ l) :
    l.Perm (a :: removeFirst a l) := by
  cases hi : l.idxOf? a with
  | none => exact absurd h (List.idxOf?_eq_none_iff.1 hi)
  | some i =>
      obtain ⟨hlt, ha, -⟩ := List.idxOf?_eq_some_iff.1 hi
      have hne : l ≠ [] := List.ne_nil_of_mem h
      obtain ⟨z, hz⟩ : ∃ z, l.getLast? = some z := ⟨_, List.getLast?_eq_some_getLast hne⟩
      have hset : l.set i z ≠ [] := by
        simpa using hne
      have hend : (l.set i z).getLast hset = z := by
        rw [List.getLast_eq_getElem, List.getElem_set]
        split
        · rfl
        · rw [List.getLast?_eq_getElem?] at hz
          simpa using (List.getElem?_eq_some_iff.1 hz).2
      have hremoved : removeFirst a l = (l.set i z).dropLast := by
        unfold removeFirst
        rw [hi, hz]
      have hperm := List.set_perm_cons_eraseIdx hlt z
      rw [← List.dropLast_append_getLast hset, hend, ← hremoved] at hperm
      have hrest : (removeFirst a l).Perm (l.eraseIdx i) :=
        (List.perm_cons z).1 ((List.perm_append_singleton _ _).symm.trans hperm)
      have hcons := List.getElem_cons_eraseIdx_perm hlt
      rw [ha] at hcons
      exact hcons.symm.trans (hrest.symm.cons a)

namespace SideRecords

variable {t : SideRecords} {x y : Nat}

/-- The finalizers that are attached to an object, oldest first. -/
def finalizers (t : SideRecords) (x : Nat) : List SideRecord :=
  ((t.attached.find? x).getD []).filter SideRecord.isFinalizer

/-- The cleanups that are attached to an object, oldest first. -/
def cleanups (t : SideRecords) (x : Nat) : List SideRecord :=
  ((t.attached.find? x).getD []).filter fun r => !r.isFinalizer

theorem partition_attached (t : SideRecords) (x : Nat) :
    ((t.attached.find? x).getD []).partition SideRecord.isFinalizer =
      (t.finalizers x, t.cleanups x) := by
  rw [List.partition_eq_filter_filter]
  rfl

theorem hasFinalizer_eq (t : SideRecords) (x : Nat) :
    t.hasFinalizer x = !(t.finalizers x).isEmpty := by
  unfold hasFinalizer finalizers
  induction (t.attached.find? x).getD [] with
  | nil => rfl
  | cons r l ih =>
      cases hr : r.isFinalizer <;> simp [hr, ih]

theorem find?_of_hasFinalizer
    (h : t.hasFinalizer x = true) :
    ∃ l, t.attached.find? x = some l := by
  cases hfind : t.attached.find? x with
  | none =>
      unfold hasFinalizer at h
      rw [hfind] at h
      cases h
  | some l => exact ⟨l, rfl⟩

theorem cleanups_of_attached_none
    (h : t.attached.find? x = none) :
    t.cleanups x = [] := by
  simp [cleanups, h]

/-! ### Queueing finalizers -/

theorem queueFinalizers_fst (t : SideRecords) (x : Nat) :
    (t.queueFinalizers x).1 = !(t.cleanups x).isEmpty := by
  unfold queueFinalizers
  rw [partition_attached]

theorem attached_queueFinalizers_self (t : SideRecords) (x : Nat) :
    (t.queueFinalizers x).2.attached.find? x =
      if (t.cleanups x).isEmpty then none else some (t.cleanups x) := by
  unfold queueFinalizers
  rw [partition_attached]
  exact AddressTable.find?_alter_self _ _ _

theorem attached_queueFinalizers_of_ne
    (t : SideRecords)
    (h : y ≠ x) :
    (t.queueFinalizers x).2.attached.find? y = t.attached.find? y := by
  unfold queueFinalizers
  rw [partition_attached]
  exact AddressTable.find?_alter_of_ne _ _ h

theorem pending_queueFinalizers (t : SideRecords) (x : Nat) :
    (t.queueFinalizers x).2.pending = t.pending ++ (t.finalizers x).map (⟨x, ·⟩) := by
  unfold queueFinalizers
  rw [partition_attached]

theorem running_queueFinalizers (t : SideRecords) (x : Nat) :
    (t.queueFinalizers x).2.running = t.running := by
  unfold queueFinalizers
  rw [partition_attached]

theorem finalizers_queueFinalizers (t : SideRecords) (x y : Nat) :
    (t.queueFinalizers x).2.finalizers y = if y = x then [] else t.finalizers y := by
  unfold finalizers
  by_cases hyx : y = x
  · subst hyx
    rw [if_pos rfl, attached_queueFinalizers_self]
    split
    · rfl
    · rw [Option.getD_some, List.filter_eq_nil_iff]
      intro r hr
      simpa using (List.mem_filter.1 hr).2
  · rw [if_neg hyx, attached_queueFinalizers_of_ne t hyx]

theorem cleanups_queueFinalizers (t : SideRecords) (x y : Nat) :
    (t.queueFinalizers x).2.cleanups y = t.cleanups y := by
  by_cases hyx : y = x
  · subst hyx
    have hself : (t.cleanups y).filter (fun r => !r.isFinalizer) = t.cleanups y :=
      List.filter_eq_self.2 fun r hr => (List.mem_filter.1 hr).2
    rw [cleanups, attached_queueFinalizers_self]
    split
    · next hnil => exact (List.isEmpty_iff.1 hnil).symm
    · exact hself
  · unfold cleanups
    rw [attached_queueFinalizers_of_ne t hyx]

/-- The finalizers of several objects are queued one object after the other. -/
theorem foldl_queueFinalizers
    {xs : List Nat}
    (hn : xs.Nodup)
    (t : SideRecords) :
    let t' := xs.foldl (fun t x => (t.queueFinalizers x).2) t
    t'.pending = t.pending ++ xs.flatMap (fun x => (t.finalizers x).map (⟨x, ·⟩)) ∧
      t'.running = t.running ∧
      (∀ y, t'.finalizers y = if y ∈ xs then [] else t.finalizers y) ∧
      ∀ y, t'.cleanups y = t.cleanups y := by
  induction xs generalizing t with
  | nil => exact ⟨(List.append_nil _).symm, rfl, fun _ => rfl, fun _ => rfl⟩
  | cons x xs ih =>
      obtain ⟨hx, hn⟩ := List.nodup_cons.1 hn
      obtain ⟨hpending, hrunning, hfinalizers, hcleanups⟩ := ih hn (t.queueFinalizers x).2
      refine ⟨?_, hrunning.trans (running_queueFinalizers t x), fun y => ?_,
        fun y => (hcleanups y).trans (cleanups_queueFinalizers t x y)⟩
      · have hothers : xs.flatMap (fun z =>
              ((t.queueFinalizers x).2.finalizers z).map (PendingRecord.mk z)) =
            xs.flatMap fun z => (t.finalizers z).map (PendingRecord.mk z) := by
          refine List.flatMap_congr fun z hz => ?_
          have hzx : z ≠ x := fun e => hx (e ▸ hz)
          rw [finalizers_queueFinalizers, if_neg hzx]
        simp only [List.foldl_cons, hpending]
        rw [hothers, pending_queueFinalizers, List.flatMap_cons, List.append_assoc]
      · simp only [List.foldl_cons, hfinalizers, finalizers_queueFinalizers, List.mem_cons]
        by_cases hyx : y = x <;> simp [hyx]

/-! ### Queueing cleanups -/

theorem attached_queueCleanups_self (t : SideRecords) (x : Nat) :
    (t.queueCleanups x).attached.find? x = none :=
  AddressTable.find?_alter_self _ _ _

theorem attached_queueCleanups_of_ne
    (t : SideRecords)
    (h : y ≠ x) :
    (t.queueCleanups x).attached.find? y = t.attached.find? y :=
  AddressTable.find?_alter_of_ne _ _ h

/-- An object without finalizers has cleanups only. -/
theorem attached_eq_cleanups
    (h : t.hasFinalizer x = false) :
    (t.attached.find? x).getD [] = t.cleanups x := by
  unfold hasFinalizer at h
  unfold cleanups
  rw [eq_comm, List.filter_eq_self]
  intro r hr
  have := List.any_eq_false.1 h r hr
  simpa using this

theorem pending_queueCleanups
    (h : t.hasFinalizer x = false) :
    (t.queueCleanups x).pending = t.pending ++ (t.cleanups x).map (⟨0, ·⟩) := by
  unfold queueCleanups
  rw [attached_eq_cleanups h]

/-! ### Attaching -/

theorem attached_attach_self (t : SideRecords) (x : Nat) (kind : RecordKind) :
    (t.attach x kind).2.attached.find? x =
      some ((t.attached.find? x).getD [] ++ [⟨t.next, kind⟩]) :=
  AddressTable.find?_alter_self _ _ _

theorem attached_attach_of_ne
    (t : SideRecords) (kind : RecordKind)
    (h : y ≠ x) :
    (t.attach x kind).2.attached.find? y = t.attached.find? y :=
  AddressTable.find?_alter_of_ne _ _ h

/-! ### Batches -/

theorem foldl_removeFirst
    {targets running rest : List Nat}
    (h : running.Perm (targets ++ rest)) :
    (targets.foldl (fun running addr => removeFirst addr running) running).Perm rest := by
  induction targets generalizing running with
  | nil => exact h
  | cons a targets ih =>
      refine ih ?_
      have ha : a ∈ running := h.mem_iff.2 (List.mem_cons_self ..)
      exact (List.perm_cons a).1 ((perm_removeFirst ha).symm.trans h)

/-- The objects of the other batches stay when a batch ends. -/
theorem running_endBatch
    {batch : List PendingRecord} {rest : List Nat}
    (h : t.running.Perm (targets batch ++ rest)) :
    (t.endBatch batch).running.Perm rest :=
  foldl_removeFirst h

theorem mem_targets
    {batch : List PendingRecord} {r : SideRecord}
    (hx : x ≠ 0)
    (h : ⟨x, r⟩ ∈ batch) :
    x ∈ targets batch :=
  List.mem_filter.2 ⟨List.mem_map.2 ⟨⟨x, r⟩, h, rfl⟩, by simpa using hx⟩

end SideRecords

end EagerHeap
