import EagerHeap.Proofs.Marking.Marker
import Mathlib.Algebra.GroupWithZero.Nat
/-!
# The work that is left to the marker

Every unreached object is shaded at most once, and every shaded object is taken off the list once.
So the length of the list and the number of unreached objects together bound the steps that the
marker still has to take.

Main result: `Marker.gray_complete`.
-/

namespace EagerHeap

/-- Replacing one element changes a sum by what the element contributes. -/
theorem sum_map_modify
    {α : Type}
    (g : α → Nat) (f : α → α)
    {l : List α} {i : Nat} {b : α}
    (h : l[i]? = some b) :
    ((l.modify i f).map g).sum + g b = (l.map g).sum + g (f b) := by
  induction l generalizing i with
  | nil => simp at h
  | cons c l ih =>
      cases i with
      | zero =>
          obtain rfl := Option.some.inj h
          simp only [List.modify_zero_cons, List.map_cons, List.sum_cons]
          omega
      | succ i =>
          have := ih (i := i) (by simpa using h)
          simp only [List.modify_succ_cons, List.map_cons, List.sum_cons]
          omega

/-- Replacing one element changes a count by what the element contributes. -/
theorem countP_modify
    {α : Type}
    (p : α → Bool) (f : α → α)
    {l : List α} {i : Nat} {b : α}
    (h : l[i]? = some b) :
    (l.modify i f).countP p + (if p b then 1 else 0) = l.countP p + if p (f b) then 1 else 0 := by
  have hcount : ∀ l : List α, l.countP p = (l.map fun a => if p a then 1 else 0).sum := by
    intro l
    induction l with
    | nil => rfl
    | cons a l ih => rw [List.countP_cons, ih, List.map_cons, List.sum_cons, Nat.add_comm]
  rw [hcount, hcount]
  exact sum_map_modify _ f h

/-- One for an unreached object, and zero for any other cell. -/
def Header.unreachedWeight (hd : Header) : Nat := if hd.isUnreached then 1 else 0

theorem Block.unreachedCount_modifyHeader
    {b : Block} {k : Nat} {hd : Header}
    (f : Header → Header)
    (h : b.header? k = some hd) :
    (b.modifyHeader f k).unreachedCount + hd.unreachedWeight =
      b.unreachedCount + (f hd).unreachedWeight := by
  cases b with
  | small s cells q =>
      rw [modifyHeader, unreachedCount, unreachedCount, ← Array.countP_toList, ← Array.countP_toList,
        Array.toList_modify]
      refine countP_modify Header.isUnreached f ?_
      rw [Array.getElem?_toList]
      exact h
  | large g n sh =>
      simp only [header?] at h
      split at h
      · next hk =>
          obtain rfl := Option.some.inj h
          simp only [modifyHeader, hk, if_true, unreachedCount, Header.unreachedWeight]
          omega
      · cases h

namespace Marker

variable {m : Marker} {x : Nat} {c : Cell}

theorem unreachedCount_eq_sum (a : Arena) :
    unreachedCount a = (a.blocks.toList.map Block.unreachedCount).sum := by
  have hfold : ∀ (l : List Block) (n : Nat),
      l.foldl (fun n b => n + b.unreachedCount) n = n + (l.map Block.unreachedCount).sum := by
    intro l
    induction l with
    | nil => intro n; rfl
    | cons b l ih =>
        intro n
        rw [List.foldl_cons, ih, List.map_cons, List.sum_cons]
        omega
  rw [unreachedCount, ← Array.foldl_toList, hfold, Nat.zero_add]

/-- A change of one header changes the number of unreached objects by what the header counts. -/
theorem unreachedCount_modifyHeader
    {a : Arena}
    (hx : a.cell? x = some c)
    (f : Header → Header) :
    unreachedCount (a.modifyHeader c.block c.index f) + c.header.unreachedWeight =
      unreachedCount a + (f c.header).unreachedWeight := by
  have hhd := Arena.header?_of_cell? hx
  obtain ⟨b, hb, hhd⟩ := Option.bind_eq_some_iff.1 hhd
  have hblocks : (a.modifyHeader c.block c.index f).blocks.toList =
      a.blocks.toList.modify c.block (Block.modifyHeader f c.index) := Array.toList_modify ..
  have hsum := sum_map_modify Block.unreachedCount (Block.modifyHeader f c.index)
    (l := a.blocks.toList) (i := c.block) (b := b) (by rw [Array.getElem?_toList]; exact hb)
  have hblock := Block.unreachedCount_modifyHeader f hhd
  rw [unreachedCount_eq_sum, unreachedCount_eq_sum, hblocks]
  omega

/-- Shading moves an object from the unreached ones to the list. -/
theorem workload_shade (m : Marker) (x : Nat) : (m.shade x).workload = m.workload := by
  unfold shade
  split
  · next c hx =>
      split
      · next hu =>
          have hcount := unreachedCount_modifyHeader hx (·.withColor .gray)
          have hold : c.header.unreachedWeight = 1 := if_pos hu
          have hnew : (c.header.withColor .gray).unreachedWeight = 0 := by
            simp [Header.unreachedWeight, Header.isUnreached]
          simp only [workload, List.length_cons]
          omega
      · rfl
  · rfl

theorem workload_shadeAll (xs : List Nat) (m : Marker) :
    (m.shadeAll xs).workload = m.workload := by
  induction xs generalizing m with
  | nil => rfl
  | cons x xs ih => exact (ih (m.shade x)).trans (workload_shade m x)

theorem workload_blacken (m : Marker) (x : Nat) : (m.blacken x).workload = m.workload := by
  rcases blacken_cases m x with ⟨-, heq⟩ | ⟨c, hc, hg, heq⟩
  · rw [heq]
  · rw [heq, workload_shadeAll]
    have hcount := unreachedCount_modifyHeader hc.1 (·.withColor .black)
    have hold : c.header.unreachedWeight = 0 := by
      simp [Header.unreachedWeight, Header.isUnreached, hg]
    have hnew : (c.header.withColor .black).unreachedWeight = 0 := by
      simp [Header.unreachedWeight, Header.isUnreached]
    simp only [workload]
    omega

/-- Each step of the marker takes one object off the work that is left. -/
theorem gray_advance
    {n : Nat}
    (hn : m.workload ≤ n) :
    (advance n m).gray = [] := by
  induction n generalizing m with
  | zero =>
      have hlen : m.gray.length = 0 := by
        simp only [workload] at hn
        omega
      exact List.length_eq_zero_iff.1 hlen
  | succ n ih =>
      unfold advance
      split
      · next hgray => exact hgray
      · next x rest hgray =>
          refine ih ?_
          rw [workload_blacken]
          simp only [workload, hgray, List.length_cons] at hn ⊢
          omega

/-- Marking to the end leaves no gray object on the list. -/
theorem gray_complete (m : Marker) : m.complete.gray = [] := gray_advance (Nat.le_refl _)

end Marker

end EagerHeap
