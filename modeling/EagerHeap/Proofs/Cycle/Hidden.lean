import EagerHeap.Proofs.Cycle.Dropped
import EagerHeap.Proofs.Cycle.Fates
/-!
# Objects that marking does not find

White objects of a set are hidden as long as only such objects point to them, they have no finalizers,
and nothing of the set is shaded. Then marking passes them by, and no change that neither stores an
address of the set nor attaches a record to it brings one of them to light.

Main results: `Tick.secluded`, `Steps.secluded` and `Secluded.of_bounded`.
-/

namespace EagerHeap

namespace Heap

variable {h h' : Heap} {l : Act} {G : Nat → Prop} {x : Nat} {c : Cell} {P : Act → Prop}

/-- The address belongs to the set, and a white object is there. -/
def Hidden (h : Heap) (G : Nat → Prop) (x : Nat) : Prop := G x ∧ h.arena.isUnreached x = true

theorem hidden_iff :
    h.Hidden G x ↔ G x ∧ ∃ c, h.arena.Object x c ∧ c.header.color = .white := by
  rw [Hidden, Arena.isUnreached_iff]

/-- Only hidden objects point to hidden ones, and hidden objects have no finalizers. -/
structure Secluded (h : Heap) (G : Nat → Prop) : Prop where
  alone : ∀ x y, h.arena.Points x y → h.Hidden G y → h.Hidden G x
  bare : ∀ x, h.Hidden G x → h.records.hasFinalizer x = false

/-- A finalizer of an object was attached before, unless the changes attach it. -/
theorem Steps.hasFinalizer_of
    (hsteps : Steps P h h')
    (hattach : ∀ kind, ¬ P (.attach x kind))
    (hf : h.records.hasFinalizer x = false) :
    h'.records.hasFinalizer x = false := by
  rw [Bool.eq_false_iff]
  intro hf'
  obtain ⟨r, hr, hfin⟩ := List.any_eq_true.1 hf'
  have hbefore := (hsteps.attached_of hattach hr).hasFinalizer hfin
  rw [hf] at hbefore
  cases hbefore

/-! ### What is no part of marking -/

/-- While a cycle runs nothing becomes hidden: new objects are black. -/
theorem Tick.hidden_of
    (ht : Tick h l h')
    (hs : h.Sound)
    (hpaint : l ≠ .paint)
    (hbegin : l ≠ .begin)
    (hidle : h.phase ≠ .idle)
    (hx : h'.Hidden G x) :
    h.Hidden G x := by
  obtain ⟨hG, d, hd, hw⟩ := hidden_iff.1 hx
  rcases ht.object hs hpaint hbegin hd with ⟨-, hnew⟩ | ⟨c, hc, -, -, hcol⟩
  · rw [hnew, Phase.allocationColor_of_ne_idle hidle] at hw
    cases hw
  · exact hidden_iff.2 ⟨hG, c, hc, hcol.symm.trans hw⟩

/-- Hidden objects stay secluded if none of their addresses is written into an object that may hold
addresses, and no record is attached to them. -/
theorem Tick.secluded
    (ht : Tick h l h')
    (hs : h.Sound)
    (hpaint : l ≠ .paint)
    (hbegin : l ≠ .begin)
    (hidle : h.phase ≠ .idle)
    (hattach : ∀ x kind, l = .attach x kind → ¬ h.Hidden G x)
    (hwrites : ∀ x c i, h.arena.Object x c → c.shape = .scan → i < c.size / Word.bytes →
      h.Hidden G (l.overwrite h x i (h.arena.memory.read (Arena.wordIndex x + i))) →
      l.overwrite h x i (h.arena.memory.read (Arena.wordIndex x + i)) =
        h.arena.memory.read (Arena.wordIndex x + i))
    (hsec : h.Secluded G) :
    h'.Secluded G := by
  have hidden : ∀ {x}, h'.Hidden G x → h.Hidden G x := ht.hidden_of hs hpaint hbegin hidle
  refine ⟨fun x y hp hy => ?_, fun x hx => ?_⟩
  · have hybefore := hidden hy
    obtain ⟨d, hd, hscan, i, hi, hword⟩ := hp.exists_word (ht.sound hs).layout
    rcases ht.object hs hpaint hbegin hd with ⟨rfl, -⟩ | ⟨c, hc, hsize, hshape, hcol⟩
    · -- A new object points to nothing.
      obtain ⟨-, e, he, -⟩ := hidden_iff.1 hybefore
      rw [ht.zeros hs hd.1 hi] at hword
      exact absurd hword.symm (Arena.ne_zero_of_contains (Arena.contains_of_cell? he.1))
    · rw [hsize] at hi
      rw [hshape] at hscan
      rw [ht.read hs hc.1 hc.2 hi] at hword
      have hold := hwrites x c i hc hscan hi (by rwa [hword])
      rw [hold] at hword
      have hpoints : h.arena.Points x y := by
        refine ⟨c, hc, hscan, i, hi, ?_⟩
        rwa [Arena.read, hs.layout.wordIndex_word hc.1]
      obtain ⟨hG, e, he, hw⟩ := hidden_iff.1 (hsec.alone x y hpoints hybefore)
      obtain rfl := he.unique hc
      exact hidden_iff.2 ⟨hG, d, hd, hcol.trans hw⟩
  · have hbefore := hidden hx
    have hstep : Steps (· = l) h h' := Steps.single rfl ht
    exact hstep.hasFinalizer_of (fun kind e => hattach x kind e.symm hbefore) (hsec.bare x hbefore)

/-- Changes that write no words keep hidden objects secluded. -/
theorem Steps.secluded
    (hsteps : Steps P h h')
    (hs : h.Sound)
    (hpaint : ¬ P .paint)
    (hbegin : ¬ P .begin)
    (hturn : ¬ P .turn)
    (hidle : h.phase ≠ .idle)
    (hattach : ∀ x kind, P (.attach x kind) → ¬ G x)
    (hwrites : ∀ l, P l → ¬ l.Writes)
    (hsec : h.Secluded G) :
    h'.Secluded G ∧ ∀ x, h'.Hidden G x → h.Hidden G x := by
  refine (hsteps.induct (R := fun g => g.phase ≠ .idle ∧ g.Secluded G ∧
    ∀ x, g.Hidden G x → h.Hidden G x) hs ⟨hidle, hsec, fun _ hx => hx⟩ ?_).2.2
  rintro g l g' hg ⟨hgidle, hgsec, hghidden⟩ hl ht
  have hlpaint : l ≠ .paint := fun e => hpaint (e ▸ hl)
  have hlbegin : l ≠ .begin := fun e => hbegin (e ▸ hl)
  refine ⟨?_, ht.secluded hg hlpaint hlbegin hgidle ?_ ?_ hgsec, fun x hx =>
    hghidden x (ht.hidden_of hg hlpaint hlbegin hgidle hx)⟩
  · rwa [ht.phase hlbegin fun e => hturn (e ▸ hl)]
  · rintro x kind rfl hx
    exact hattach x kind hl hx.1
  · intro x c i _ _ _ _
    cases l with
    | store => exact absurd trivial (hwrites _ hl)
    | copy => exact absurd trivial (hwrites _ hl)
    | _ => rfl

/-- An object stays white if it is not handed out anew. -/
theorem Steps.white
    (hsteps : Steps P h h')
    (hs : h.Sound)
    (hbirth : ¬ P (.birth x))
    (hpaint : ¬ P .paint)
    (hbegin : ¬ P .begin)
    (hw : ∀ c, h.arena.Object x c → c.header.color = .white) :
    ∀ d, h'.arena.Object x d → d.header.color = .white := by
  refine (hsteps.induct (R := fun g => ∀ c, g.arena.Object x c → c.header.color = .white)
    hs hw ?_).2
  intro g l g' hg hgw hl ht d hd
  rcases ht.object hg (fun e => hpaint (e ▸ hl)) (fun e => hbegin (e ▸ hl)) hd with
    ⟨rfl, -⟩ | ⟨c, hc, -, -, hcol⟩
  · exact absurd hl hbirth
  · exact hcol.trans (hgw c hc)

/-! ### Marking -/

/-- Marking reaches no hidden object. -/
theorem Secluded.bounded
    (hsec : h.Secluded G) :
    h.Bounded fun x => ¬ h.Hidden G x := by
  refine ⟨fun x y hx hp _ hy => hx (hsec.alone x y hp hy), fun x c ho hne hx => ?_⟩
  obtain ⟨-, d, hd, hw⟩ := hidden_iff.1 hx
  exact hne (ho.unique hd ▸ hw)

/-- If marking has reached no hidden object, the hidden objects are the same and stay secluded. -/
theorem Secluded.of_bounded
    (hsec : h.Secluded G)
    (hb : h'.Bounded fun x => ¬ h.Hidden G x)
    (ha : Arena.Alike h.arena h'.arena)
    (hsteps : Steps P h h')
    (hs : h.Sound)
    (hpark : ∀ x, ¬ P (.park x))
    (hbegin : ¬ P .begin)
    (hattach : ∀ x kind, ¬ P (.attach x kind)) :
    h'.Secluded G ∧ ∀ x, h'.Hidden G x ↔ h.Hidden G x := by
  have hidden : ∀ x, h'.Hidden G x ↔ h.Hidden G x := by
    intro x
    constructor
    · intro hx
      obtain ⟨hG, d, hd, hw⟩ := hidden_iff.1 hx
      obtain ⟨c, ho⟩ := Arena.exists_object ((ha.isAllocated x).symm.trans hd.isAllocated)
      refine hidden_iff.2 ⟨hG, c, ho, ?_⟩
      by_contra hne
      have hreached := hsteps.isReached hs (Arena.isReached_iff.2 ⟨c, ho.1, ho.2, hne⟩) (hpark x)
        hbegin
      obtain ⟨e, he, hst, hne'⟩ := Arena.isReached_iff.1 hreached
      exact hne' (hd.unique ⟨he, hst⟩ ▸ hw)
    · intro hx
      obtain ⟨hG, c, ho, -⟩ := hidden_iff.1 hx
      obtain ⟨d, hd⟩ := Arena.exists_object ((ha.isAllocated x).trans ho.isAllocated)
      refine hidden_iff.2 ⟨hG, d, hd, ?_⟩
      by_contra hne
      exact hb.within x d hd hne hx
  refine ⟨⟨fun x y hp hy => (hidden x).2 ?_, fun x hx => ?_⟩, hidden⟩
  · exact hsec.alone x y (ha.points_iff.1 hp) ((hidden y).1 hy)
  · exact hsteps.hasFinalizer_of (hattach x) (hsec.bare x ((hidden x).1 hx))

/-- A cycle with the given roots shall not keep the object at the address. -/
def Garbage (h : Heap) (roots : List Nat) (x : Nat) : Prop :=
  h.arena.isAllocated x = true ∧ ¬ h.Live roots x

/-- When a cycle begins, exactly the objects that it shall not keep are hidden. -/
theorem secluded_begin (h : Heap) (roots : List Nat) :
    h.resetCycle.nextPhase.2.Secluded (h.Garbage roots) ∧
      ∀ x, h.resetCycle.nextPhase.2.Hidden (h.Garbage roots) x ↔ h.Garbage roots x := by
  have halike : Arena.Alike h.arena h.resetCycle.nextPhase.2.arena := Arena.alike_resetColors _
  have hidden : ∀ x, h.resetCycle.nextPhase.2.Hidden (h.Garbage roots) x ↔ h.Garbage roots x := by
    refine fun x => ⟨And.left, fun hx => hidden_iff.2 ⟨hx, ?_⟩⟩
    obtain ⟨d, hd⟩ := Arena.exists_object ((halike.isAllocated x).trans hx.1)
    exact ⟨d, hd, Arena.color_resetColors hd⟩
  refine ⟨⟨fun x y hp hy => ?_, fun x hx => ?_⟩, hidden⟩
  · obtain ⟨hal, hnot⟩ := (hidden y).1 hy
    have hpoints := halike.points_iff.1 hp
    obtain ⟨c, ho, -⟩ := id hpoints
    exact (hidden x).2 ⟨ho.isAllocated, fun hx => hnot (.word hx hpoints hal)⟩
  · obtain ⟨hal, hnot⟩ := (hidden x).1 hx
    exact Bool.eq_false_iff.2 fun hf => hnot (.root hal (Or.inr hf))

end Heap

end EagerHeap
