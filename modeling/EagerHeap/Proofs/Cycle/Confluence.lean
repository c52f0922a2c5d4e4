import EagerHeap.Proofs.Arena.Partition
import EagerHeap.Proofs.Cycle.Marked
/-!
# The order of marking

The marker may take gray objects in any order, in steps of any size, and be told of a root twice. It
changes colors only, and once no object is gray the colors are decided by what can be reached. So two
ways of marking one heap to the end leave the same heap.

Main results: `Arena.Recolored.eq_of_marked` and `Marking.eq_of_marked`.
-/

namespace EagerHeap

/-! ### Arenas apart from colors -/

/-- Headers that differ in their colors only are equal if their colors are. -/
theorem Header.eq_of_color
    {hd hd' : Header}
    (hsame : hd.withColor .white = hd'.withColor .white)
    (hcolor : hd.color = hd'.color) :
    hd = hd' := by
  obtain ⟨st, c, fl⟩ := hd
  obtain ⟨st', c', fl'⟩ := hd'
  obtain ⟨rfl, -, rfl⟩ := Header.mk.inj hsame
  exact congrArg (Header.mk st · fl) hcolor

/-- A change of one element that a map takes back does not show in the mapped array. -/
theorem map_modify_of_absorbed
    {α β : Type}
    {f : α → β} {g : α → α}
    (hfg : ∀ a, f (g a) = f a)
    (xs : Array α) (i : Nat) :
    (xs.modify i g).map f = xs.map f := by
  refine Array.ext_getElem? fun j => ?_
  rw [Array.getElem?_map, Array.getElem?_map, Array.getElem?_modify]
  split
  · rw [Option.map_map]
    exact congrArg (Option.map · xs[j]?) (funext hfg)
  · rfl

namespace Block

theorem mapHeaders_modifyHeader
    {f g : Header → Header}
    (hfg : ∀ hd, f (g hd) = f hd)
    (k : Nat) (b : Block) :
    mapHeaders f (modifyHeader g k b) = mapHeaders f b := by
  cases b with
  | small s cells q => exact congrArg (small s · q) (map_modify_of_absorbed hfg cells k)
  | large hd n sh =>
      by_cases hk : k = 0
      · rw [modifyHeader, if_pos hk]
        exact congrArg (large · n sh) (hfg hd)
      · rw [modifyHeader, if_neg hk]

/-- Blocks that differ in colors only are equal if their colors are. -/
theorem eq_of_colors
    {b b' : Block}
    (hsame : mapHeaders (·.withColor .white) b = mapHeaders (·.withColor .white) b')
    (hcolors : ∀ k hd hd', b.header? k = some hd → b'.header? k = some hd' → hd.color = hd'.color) :
    b = b' := by
  cases b with
  | small s cells q =>
      cases b' with
      | large => cases hsame
      | small s' cells' q' =>
          obtain ⟨rfl, hcells, rfl⟩ := Block.small.inj hsame
          refine congrArg (small s · q) (Array.ext_getElem? fun k => ?_)
          have hk := congrArg (fun a : Array Header => a[k]?) hcells
          simp only [Array.getElem?_map] at hk
          cases hhd : cells[k]? with
          | none =>
              rw [hhd] at hk
              exact (Option.map_eq_none_iff.1 hk.symm).symm
          | some hd =>
              rw [hhd] at hk
              obtain ⟨hd', hhd', heq⟩ := Option.map_eq_some_iff.1 hk.symm
              rw [hhd', Header.eq_of_color heq.symm (hcolors k hd hd' hhd hhd')]
  | large hd n sh =>
      cases b' with
      | small => cases hsame
      | large hd' n' sh' =>
          obtain ⟨hhd, rfl, rfl⟩ := Block.large.inj hsame
          exact congrArg (large · n sh) (Header.eq_of_color hhd (hcolors 0 hd hd' rfl rfl))

end Block

namespace Arena

variable {a a' b : Arena} {L : Nat → Prop}

theorem resetColors_modifyHeader (a : Arena) (i k : Nat) (d : Color) :
    (a.modifyHeader i k (·.withColor d)).resetColors = a.resetColors := by
  refine congrArg (fun blocks => { a with blocks }) (map_modify_of_absorbed ?_ a.blocks i)
  refine Block.mapHeaders_modifyHeader ?_ k
  exact fun _ => rfl

/-- Arenas that differ in colors only are equal if their colors are. -/
theorem eq_of_colors
    (hsame : a.resetColors = a'.resetColors)
    (hcolors : ∀ i k hd hd', a.header? i k = some hd → a'.header? i k = some hd' →
      hd.color = hd'.color) :
    a = a' := by
  obtain ⟨pages, blocks, memory⟩ := a
  obtain ⟨pages', blocks', memory'⟩ := a'
  obtain ⟨rfl, hblocks, rfl⟩ := Arena.mk.inj hsame
  refine congrArg (Arena.mk pages · memory) (Array.ext_getElem? fun i => ?_)
  have hi := congrArg (fun bs : Array Block => bs[i]?) hblocks
  simp only [Array.getElem?_map] at hi
  cases hb : blocks[i]? with
  | none =>
      rw [hb] at hi
      exact (Option.map_eq_none_iff.1 hi.symm).symm
  | some b =>
      rw [hb] at hi
      obtain ⟨b', hb', heq⟩ := Option.map_eq_some_iff.1 hi.symm
      rw [hb', Block.eq_of_colors heq.symm fun k hd hd' hhd hhd' => ?_]
      refine hcolors i k hd hd' ?_ ?_
      · exact Option.bind_eq_some_iff.2 ⟨b, hb, hhd⟩
      · exact Option.bind_eq_some_iff.2 ⟨b', hb', hhd'⟩

/-- Every header was there before the colors were changed. -/
theorem exists_header?
    {i k : Nat} {hd : Header}
    (hsame : a.resetColors = b.resetColors)
    (hhd : a.header? i k = some hd) :
    ∃ hd₀, b.header? i k = some hd₀ := by
  have heq := congrArg (fun a : Arena => a.header? i k) hsame
  simp only [header?_resetColors, hhd, Option.map_some] at heq
  obtain ⟨hd₀, h₀, -⟩ := Option.map_eq_some_iff.1 heq.symm
  exact ⟨hd₀, h₀⟩

/-- Two ways of marking one arena agree if the same objects are marked in the end. -/
theorem Recolored.eq_of_marked
    (hr : Recolored b a)
    (hr' : Recolored b a')
    (hl : b.Layout)
    (hm : a.Marked L)
    (hm' : a'.Marked L)
    (hsame : a.resetColors = b.resetColors)
    (hsame' : a'.resetColors = b.resetColors) :
    a = a' := by
  refine eq_of_colors (hsame.trans hsame'.symm) fun i k hd hd' hhd hhd' => ?_
  obtain ⟨hd₀, h₀⟩ := exists_header? hsame hhd
  obtain ⟨d, hd₁, -, hkeep⟩ := hr.headers i k hd₀ h₀
  obtain ⟨d', hd₁', -, hkeep'⟩ := hr'.headers i k hd₀ h₀
  obtain rfl := Option.some.inj (hhd.symm.trans hd₁)
  obtain rfl := Option.some.inj (hhd'.symm.trans hd₁')
  change d = d'
  by_cases hst : hd₀.state = .allocated
  · -- The color of an object is decided by whether it is marked.
    obtain ⟨x, c, hx, rfl, rfl, rfl⟩ :=
      hl.exists_cell h₀ (by rw [hst]; exact CellState.noConfusion)
    obtain ⟨e, hcell, -⟩ := hr.cell? hx
    obtain ⟨e', hcell', -⟩ := hr'.cell? hx
    have hheader := header?_of_cell? hcell
    have hheader' := header?_of_cell? hcell'
    obtain rfl : d = e := congrArg Header.color (Option.some.inj (hhd.symm.trans hheader))
    obtain rfl : d' = e' := congrArg Header.color (Option.some.inj (hhd'.symm.trans hheader'))
    rcases hm x _ ⟨hcell, hst⟩ with ⟨hx, hblack⟩ | ⟨hx, hwhite⟩
    · rcases hm' x _ ⟨hcell', hst⟩ with ⟨-, hblack'⟩ | ⟨hnot, -⟩
      · exact hblack.trans hblack'.symm
      · exact absurd hx hnot
    · rcases hm' x _ ⟨hcell', hst⟩ with ⟨hx', -⟩ | ⟨-, hwhite'⟩
      · exact absurd hx' hx
      · exact hwhite.trans hwhite'.symm
  · rw [hkeep hst, hkeep' hst]

end Arena

/-! ### What marking leaves alone -/

namespace Marker

theorem resetColors_shade (m : Marker) (x : Nat) :
    (m.shade x).arena.resetColors = m.arena.resetColors := by
  unfold shade
  split
  · split
    · exact Arena.resetColors_modifyHeader ..
    · rfl
  · rfl

theorem resetColors_shadeAll (xs : List Nat) (m : Marker) :
    (m.shadeAll xs).arena.resetColors = m.arena.resetColors := by
  induction xs generalizing m with
  | nil => rfl
  | cons x xs ih => exact (ih (m.shade x)).trans (resetColors_shade m x)

theorem resetColors_blacken (m : Marker) (x : Nat) :
    (m.blacken x).arena.resetColors = m.arena.resetColors := by
  rcases blacken_cases m x with ⟨-, heq⟩ | ⟨c, -, -, heq⟩
  · rw [heq]
  · rw [heq, resetColors_shadeAll]
    exact Arena.resetColors_modifyHeader ..

theorem resetColors_advance (n : Nat) (m : Marker) :
    (advance n m).arena.resetColors = m.arena.resetColors := by
  induction n generalizing m with
  | zero => rfl
  | succ n ih =>
      unfold advance
      split
      · rfl
      · next x rest _ => exact (ih _).trans (resetColors_blacken { m with gray := rest } x)

end Marker

namespace Heap

variable {h g g' : Heap} {L : Nat → Prop} {roots roots' : List Nat}

/-- The heap apart from what marking changes. -/
def bleached (h : Heap) : Heap :=
  { h with
    arena := h.arena.resetColors
    barrier := #[]
    collector := h.collector.map Collector.unmarked }

theorem bleached_marking
    {f : Marker → Marker}
    (hf : ∀ m : Marker, (f m).arena.resetColors = m.arena.resetColors)
    (h : Heap) :
    (h.marking f).bleached = h.bleached := by
  unfold marking
  split
  · rfl
  · next k hk =>
      unfold bleached
      simp only [hf, hk]
      rfl

theorem bleached_shadeRoots (h : Heap) (roots : List Nat) :
    (h.shadeRoots roots).bleached = h.bleached :=
  bleached_marking (fun m => Marker.resetColors_shadeAll _ m) h

theorem bleached_drainBarrier (h : Heap) : h.drainBarrier.bleached = h.bleached :=
  bleached_marking (fun m => Marker.resetColors_shadeAll _ m) { h with barrier := #[] }

theorem bleached_markStep (h : Heap) (n : Nat) : (h.markStep n).bleached = h.bleached :=
  (bleached_marking (Marker.resetColors_advance n) _).trans (bleached_drainBarrier h)

theorem bleached_markAll (h : Heap) : h.markAll.bleached = h.bleached :=
  (bleached_marking (fun m => Marker.resetColors_advance _ m) _).trans (bleached_drainBarrier h)

theorem bleached_markSteps (budget n : Nat) (h : Heap) :
    (markSteps budget n h).bleached = h.bleached := by
  induction n generalizing h with
  | zero => rfl
  | succ n ih =>
      unfold markSteps
      simp only
      split
      · exact (ih _).trans (bleached_markStep h budget)
      · exact bleached_markStep h budget

/-- Marking and the changes of phase do not depend on each other. -/
theorem bleached_nextPhase (h : Heap) : h.nextPhase.2.bleached = h.bleached.nextPhase.2 := rfl

/-! ### Marking to the end -/

/-- A heap is what marking leaves alone together with what the marker works on. -/
theorem eq_of_bleached
    (hsame : g.bleached = g'.bleached)
    (hattached : g.collector.isSome = true)
    (hbarrier : g.barrier = g'.barrier)
    (hmarker : g.marker = g'.marker) :
    g = g' := by
  have hcollector := congrArg Heap.collector hsame
  obtain ⟨k, hk⟩ := Option.isSome_iff_exists.1 hattached
  rw [show g.bleached.collector = some k.unmarked from congrArg (Option.map _) hk] at hcollector
  obtain ⟨k', hk', hunmarked⟩ := Option.map_eq_some_iff.1 hcollector.symm
  have harena : g.arena = g'.arena := congrArg Marker.arena hmarker
  have hgray := congrArg Marker.gray hmarker
  have hmarked := congrArg Marker.marked hmarker
  simp only [marker, grays, hk, hk', Option.map_some, Option.getD_some] at hgray hmarked
  have hkk : k = k' := by
    cases k
    cases k'
    simp_all [Collector.unmarked]
  have hboth : g.collector = g'.collector := by rw [hk, hk', hkk]
  cases g
  cases g'
  simp_all [bleached]

/-- The heap in which marking ends is decided by the objects that can be reached: the order, the steps
and the repetitions of marking do not matter. -/
theorem Marking.eq_of_marked
    (hm : g.Marking L)
    (hm' : g'.Marking L)
    (hp : Painted h g)
    (hp' : Painted h g')
    (hl : h.arena.Layout)
    (hmarked : g.arena.Marked L)
    (hmarked' : g'.arena.Marked L)
    (hgrays : g.grays = [])
    (hgrays' : g'.grays = [])
    (hsame : g.bleached = g'.bleached)
    (hbefore : g.arena.resetColors = h.arena.resetColors) :
    g = g' := by
  have hbefore' : g'.arena.resetColors = h.arena.resetColors :=
    (congrArg Heap.arena hsame).symm.trans hbefore
  have harena : g.arena = g'.arena :=
    hp.recolored.eq_of_marked hp'.recolored hl hmarked hmarked' hbefore hbefore'
  refine eq_of_bleached hsame hm.attached (hm.drained.trans hm'.drained.symm) ?_
  have hcount : g.marker.marked = g'.marker.marked := by
    rw [hm.exact.counted, hm'.exact.counted]
    exact congrArg Arena.blackCount harena
  exact Marker.mk.injEq .. ▸ ⟨harena, hgrays.trans hgrays'.symm, hcount⟩

end Heap

end EagerHeap
