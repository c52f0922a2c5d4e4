import EagerHeap.Proofs.Marking.Marker
/-!
# The tri-color invariant

While the collector marks, every gray object is on its list, and a white object that a black one
points to is among the addresses that were stored since the marker last looked. Shading and
blackening keep this, and once no object is gray and nothing was stored, everything that can be
reached from marked objects is marked.

Main results: `Marker.tricolor_complete`, `Marker.within_complete` and `Tricolor.reached`.
-/

namespace EagerHeap

namespace Arena

/-- Gray objects are listed, and the white objects to which black ones point satisfy `S`. -/
structure Tricolor (a : Arena) (gray : List Nat) (S : Nat → Prop) : Prop where
  listed : ∀ x c, a.Object x c → c.header.color = .gray → x ∈ gray
  seen : ∀ x y c d, a.Object x c → c.header.color = .black → a.Points x y → a.Object y d →
    d.header.color = .white → S y

/-- Every object that marking has reached satisfies `L`. -/
def Within (a : Arena) (L : Nat → Prop) : Prop :=
  ∀ x c, a.Object x c → c.header.color ≠ .white → L x

/-- The addresses that can be reached from roots through the words of objects. -/
inductive Reachable (a : Arena) (roots : Nat → Prop) : Nat → Prop
  | root {x : Nat} (hx : a.isAllocated x = true) (hr : roots x) : Reachable a roots x
  | word {x y : Nat} (hx : Reachable a roots x) (hp : a.Points x y)
      (hy : a.isAllocated y = true) : Reachable a roots y

variable {a a' : Arena} {gray : List Nat} {S T L : Nat → Prop} {x y : Nat} {c d : Cell}

theorem Reachable.isAllocated
    {roots : Nat → Prop}
    (hx : a.Reachable roots x) :
    a.isAllocated x = true := by
  cases hx with
  | root hal _ => exact hal
  | word _ _ hal => exact hal

theorem Tricolor.mono
    (ht : a.Tricolor gray S)
    (hST : ∀ y, S y → T y) :
    a.Tricolor gray T :=
  ⟨ht.listed, fun x y c d hx hb hp hy hw => hST y (ht.seen x y c d hx hb hp hy hw)⟩

theorem color_resetColors
    (ho : a.resetColors.Object x c) :
    c.header.color = .white := by
  obtain ⟨hx, -⟩ := ho
  rw [cell?_resetColors] at hx
  obtain ⟨b, -, rfl⟩ := Option.map_eq_some_iff.1 hx
  rfl

/-- The invariant holds while every object is white. -/
theorem tricolor_resetColors (a : Arena) : a.resetColors.Tricolor gray S := by
  refine ⟨fun x c ho hg => ?_, fun x y c d ho hb => ?_⟩
  · rw [color_resetColors ho] at hg
    cases hg
  · rw [color_resetColors ho] at hb
    cases hb

/-- If no object is gray and nothing has to be looked at, everything that can be reached from
marked objects is marked. -/
theorem Tricolor.reached
    {roots : Nat → Prop}
    (ht : a.Tricolor [] fun _ => False)
    (hroots : ∀ x, roots x → ∀ c, a.Object x c → c.header.color ≠ .white)
    (hx : a.Reachable roots x) :
    ∀ c, a.Object x c → c.header.color ≠ .white := by
  induction hx with
  | root hal hr => exact hroots _ hr
  | @word x y hreach hp hal ih =>
      intro d hd hw
      obtain ⟨c, hc, -⟩ := id hp
      have hblack : c.header.color = .black := by
        cases hcol : c.header.color with
        | white => exact absurd hcol (ih c hc)
        | gray => exact absurd (ht.listed x c hc hcol) List.not_mem_nil
        | black => rfl
      exact ht.seen x y c d hc hblack hp hd hw

/-! ### Recoloring and objects -/

theorem Recolored.object
    (hr : Recolored a a')
    (ho : a'.Object x c) :
    ∃ b col, a.Object x b ∧ c = { b with header := b.header.withColor col } := by
  obtain ⟨b, col, hb, rfl, -⟩ := hr.exists_cell? ho.1
  exact ⟨b, col, ⟨hb, ho.2⟩, rfl⟩

theorem Alike.points
    (h : Alike a a')
    (hp : a.Points x y) :
    a'.Points x y := by
  obtain ⟨c, ho, hsh, i, hi, hy⟩ := hp
  obtain ⟨hd, hcell, hst⟩ := h.states x c ho.1
  refine ⟨_, ⟨hcell, hst.trans ho.2⟩, hsh, i, hi, ?_⟩
  rw [read, h.memory]
  exact hy

theorem Alike.points_iff
    (h : Alike a a') :
    a'.Points x y ↔ a.Points x y :=
  ⟨h.symm.points, h.points⟩

theorem Recolored.points_iff
    (hr : Recolored a a') :
    a'.Points x y ↔ a.Points x y :=
  hr.alike.points_iff

theorem Reachable.mono
    {roots more : Nat → Prop}
    (hx : a.Reachable roots x)
    (hroots : ∀ y, roots y → more y) :
    a.Reachable more x := by
  induction hx with
  | root hal hr => exact .root hal (hroots _ hr)
  | word _ hp hal ih => exact .word ih hp hal

theorem Alike.reachable
    {roots : Nat → Prop}
    (h : Alike a a')
    (hx : a.Reachable roots x) :
    a'.Reachable roots x := by
  induction hx with
  | root hal hr => exact .root ((h.isAllocated _).trans hal) hr
  | word _ hp hal ih => exact .word ih (h.points hp) ((h.isAllocated _).trans hal)

/-- What can be reached does not depend on flags and colors. -/
theorem Alike.reachable_eq
    {roots : Nat → Prop}
    (h : Alike a a') :
    a'.Reachable roots = a.Reachable roots :=
  funext fun _ => propext ⟨h.symm.reachable, h.reachable⟩

end Arena

namespace Marker

open Arena (Tricolor Within)

variable {m : Marker} {S L : Nat → Prop} {x y : Nat} {c d : Cell} {rest : List Nat}

/-! ### What shading does to one object -/

theorem gray_shade (m : Marker) (x : Nat) :
    (m.shade x).gray =
      if (m.arena.cell? x).any (·.header.isUnreached) then x :: m.gray else m.gray := by
  unfold shade
  cases hx : m.arena.cell? x with
  | none => rfl
  | some c => by_cases hu : c.header.isUnreached = true <;> simp [hu]

/-- An object after shading, compared with the same object before. -/
theorem object_shade
    (ho : (m.shade x).arena.Object y d) :
    ∃ c, m.arena.Object y c ∧ d = if y = x then c.shaded else c := by
  obtain ⟨hd, hst⟩ := ho
  rw [cell?_shade] at hd
  by_cases hyx : y = x
  · rw [if_pos hyx] at hd
    obtain ⟨c, hc, rfl⟩ := Option.map_eq_some_iff.1 hd
    exact ⟨c, ⟨hc, by simpa [Cell.shaded] using hst⟩, by rw [if_pos hyx]⟩
  · rw [if_neg hyx] at hd
    exact ⟨d, ⟨hd, hst⟩, by rw [if_neg hyx]⟩

theorem tricolor_shade
    (ht : Tricolor m.arena m.gray S)
    (x : Nat) :
    Tricolor (m.shade x).arena (m.shade x).gray fun y => S y ∧ y ≠ x := by
  have hgrow : ∀ z, z ∈ m.gray → z ∈ (m.shade x).gray := by
    intro z hz
    rw [gray_shade]
    split
    · exact List.mem_cons_of_mem _ hz
    · exact hz
  refine ⟨fun y d hd hg => ?_, fun y z c d hc hb hp hd hw => ?_⟩
  · obtain ⟨c, hc, rfl⟩ := object_shade hd
    by_cases hyx : y = x
    · subst hyx
      rw [if_pos rfl] at hg
      by_cases hu : c.header.isUnreached = true
      · rw [gray_shade, hc.1]
        simp [hu]
      · refine hgrow y (ht.listed y c hc ?_)
        simpa [Cell.shaded, Header.shaded, hu] using hg
    · rw [if_neg hyx] at hg
      exact hgrow y (ht.listed y c hc hg)
  · rw [(recolored_shade m x).points_iff] at hp
    obtain ⟨b, ho, rfl⟩ := object_shade hc
    obtain ⟨e, he, rfl⟩ := object_shade hd
    have hblack : b.header.color = .black := by
      by_cases hyx : y = x
      · rw [if_pos hyx] at hb
        have heq : b.shaded.header = b.header := by
          refine Header.eq_of_color_shaded fun hgray => ?_
          rw [show b.header.shaded.color = .black from hb] at hgray
          cases hgray
        rwa [heq] at hb
      · rwa [if_neg hyx] at hb
    by_cases hzx : z = x
    · rw [if_pos hzx] at hw
      exact absurd hw (Header.color_shaded_ne _ he.2)
    · rw [if_neg hzx] at hw
      exact ⟨ht.seen y z b e ho hblack hp he hw, hzx⟩

theorem tricolor_shadeAll
    (xs : List Nat)
    (ht : Tricolor m.arena m.gray S) :
    Tricolor (m.shadeAll xs).arena (m.shadeAll xs).gray fun y => S y ∧ y ∉ xs := by
  induction xs generalizing m S with
  | nil => exact ht.mono fun y hy => ⟨hy, List.not_mem_nil⟩
  | cons x xs ih =>
      refine (ih (tricolor_shade ht x)).mono ?_
      rintro y ⟨⟨hS, hne⟩, hmem⟩
      refine ⟨hS, fun hc => ?_⟩
      rcases List.mem_cons.1 hc with rfl | hc
      · exact hne rfl
      · exact hmem hc

/-- The step of the marker: the first object of the list becomes black, and what it points to is
shaded. -/
theorem tricolor_blacken
    (hl : m.arena.Layout)
    (ht : Tricolor m.arena (x :: rest) S) :
    Tricolor ({ m with gray := rest }.blacken x).arena ({ m with gray := rest }.blacken x).gray
      S := by
  rcases blacken_cases { m with gray := rest } x with ⟨hnot, heq⟩ | ⟨c, hc, hg, heq⟩
  · rw [heq]
    refine ⟨fun y d hd hgray => ?_, ht.seen⟩
    rcases List.mem_cons.1 (ht.listed y d hd hgray) with rfl | hmem
    · exact absurd hgray (hnot d hd)
    · exact hmem
  · rw [heq]
    have hc : m.arena.Object x c := hc
    have hcells := Arena.cell?_modifyHeader_of_cell hc.1 (·.withColor .black)
    have hrank : c.header.color.rank ≤ Color.rank .black := by
      rw [hg]
      decide
    have hr : Arena.Recolored m.arena (m.arena.modifyHeader c.block c.index (·.withColor .black)) :=
      Arena.recolored_modifyHeader hc.1 hc.2 hrank
    have hother : ∀ y d, y ≠ x →
        (m.arena.modifyHeader c.block c.index (·.withColor .black)).Object y d →
          m.arena.Object y d := by
      rintro y d hyx ⟨hd, hst⟩
      rw [hcells, if_neg hyx] at hd
      exact ⟨hd, hst⟩
    have hself : ∀ d, (m.arena.modifyHeader c.block c.index (·.withColor .black)).Object x d →
        d.header.color = .black := by
      rintro d ⟨hd, -⟩
      rw [hcells, if_pos rfl] at hd
      obtain rfl := Option.some.inj hd
      rfl
    -- Between the two changes the white objects to which `x` points are still to be shaded.
    have hmid : Tricolor (m.arena.modifyHeader c.block c.index (·.withColor .black)) rest
        fun y => S y ∨ y ∈ m.arena.pointers c := by
      refine ⟨fun y d hd hgray => ?_, fun y z e d he hb hp hd hw => ?_⟩
      · have hyx : y ≠ x := by
          rintro rfl
          rw [hself d hd] at hgray
          cases hgray
        rcases List.mem_cons.1 (ht.listed y d (hother y d hyx hd) hgray) with heq | hmem
        · exact absurd heq hyx
        · exact hmem
      · rw [hr.points_iff] at hp
        have hzx : z ≠ x := by
          rintro rfl
          rw [hself d hd] at hw
          cases hw
        have hz := hother z d hzx hd
        by_cases hyx : y = x
        · subst hyx
          exact Or.inr ((Arena.mem_pointers hl hc).2 ⟨hp, Arena.contains_of_cell? hz.1⟩)
        · exact Or.inl (ht.seen y z e d (hother y e hyx he) hb hp hz hw)
    refine (tricolor_shadeAll (m.arena.pointers c) (m := { m with
      arena := m.arena.modifyHeader c.block c.index (·.withColor .black)
      gray := rest
      marked := m.marked + 1 }) hmid).mono ?_
    rintro y ⟨hS | hmem, hnot⟩
    · exact hS
    · exact absurd hmem hnot

theorem tricolor_advance
    (n : Nat)
    (hl : m.arena.Layout)
    (ht : Tricolor m.arena m.gray S) :
    Tricolor (advance n m).arena (advance n m).gray S := by
  induction n generalizing m with
  | zero => exact ht
  | succ n ih =>
      unfold advance
      split
      · exact ht
      · next x rest hgray =>
          rw [hgray] at ht
          exact ih ((recolored_blacken { m with gray := rest } x).layout hl)
            (tricolor_blacken hl ht)

theorem tricolor_complete
    (hl : m.arena.Layout)
    (ht : Tricolor m.arena m.gray S) :
    Tricolor m.complete.arena m.complete.gray S :=
  tricolor_advance _ hl ht

/-! ### What marking does not reach -/

theorem within_shade
    (hw : Within m.arena L)
    (hx : m.arena.isAllocated x = true → L x) :
    Within (m.shade x).arena L := by
  intro y d hd hne
  obtain ⟨c, hc, rfl⟩ := object_shade hd
  by_cases hyx : y = x
  · subst hyx
    exact hx hc.isAllocated
  · rw [if_neg hyx] at hne
    exact hw y c hc hne

theorem within_shadeAll
    (xs : List Nat)
    (hw : Within m.arena L)
    (hxs : ∀ x ∈ xs, m.arena.isAllocated x = true → L x) :
    Within (m.shadeAll xs).arena L := by
  induction xs generalizing m with
  | nil => exact hw
  | cons x xs ih =>
      refine ih (within_shade hw (hxs x (List.mem_cons_self ..))) fun y hy hal => ?_
      rw [(recolored_shade m x).isAllocated] at hal
      exact hxs y (List.mem_cons_of_mem _ hy) hal

theorem within_blacken
    (hl : m.arena.Layout)
    (hclosed : ∀ x y, L x → m.arena.Points x y → m.arena.isAllocated y = true → L y)
    (hw : Within m.arena L)
    (x : Nat) :
    Within (m.blacken x).arena L := by
  rcases blacken_cases m x with ⟨-, heq⟩ | ⟨c, hc, hg, heq⟩
  · rw [heq]
    exact hw
  · rw [heq]
    have hrank : c.header.color.rank ≤ Color.rank .black := by
      rw [hg]
      decide
    have hr := Arena.recolored_modifyHeader hc.1 hc.2 hrank
    have hx : L x := by
      refine hw x c hc ?_
      rw [hg]
      decide
    refine within_shadeAll (m.arena.pointers c) (m := { m with
      arena := m.arena.modifyHeader c.block c.index (·.withColor .black)
      marked := m.marked + 1 }) ?_ ?_
    · rintro y d ⟨hd, hst⟩ hne
      rw [Arena.cell?_modifyHeader_of_cell hc.1] at hd
      by_cases hyx : y = x
      · subst hyx
        exact hx
      · rw [if_neg hyx] at hd
        exact hw y d ⟨hd, hst⟩ hne
    · intro y hy hal
      rw [hr.isAllocated] at hal
      exact hclosed x y hx ((Arena.mem_pointers hl hc).1 hy).1 hal

theorem within_advance
    (n : Nat)
    (hl : m.arena.Layout)
    (hclosed : ∀ x y, L x → m.arena.Points x y → m.arena.isAllocated y = true → L y)
    (hw : Within m.arena L) :
    Within (advance n m).arena L := by
  induction n generalizing m with
  | zero => exact hw
  | succ n ih =>
      unfold advance
      split
      · exact hw
      · next x rest hgray =>
          have hr := recolored_blacken { m with gray := rest } x
          have hblack : Within ({ m with gray := rest }.blacken x).arena L :=
            within_blacken (m := { m with gray := rest }) hl hclosed hw x
          refine ih (hr.layout hl) (fun y z hy hp hal => ?_) hblack
          rw [hr.points_iff] at hp
          rw [hr.isAllocated] at hal
          exact hclosed y z hy hp hal

theorem within_complete
    (hl : m.arena.Layout)
    (hclosed : ∀ x y, L x → m.arena.Points x y → m.arena.isAllocated y = true → L y)
    (hw : Within m.arena L) :
    Within m.complete.arena L :=
  within_advance _ hl hclosed hw

end Marker

end EagerHeap
