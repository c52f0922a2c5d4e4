import EagerHeap.Proofs.Heap.Births
import EagerHeap.Proofs.Heap.Claiming
/-!
# The only worker of a heap

A worker that is alone and has nothing in its free list for a span finds every free cell of the span. So
it allocates as many objects as there are free cells, and only then carves a block.

Main results: `Lone.allocate` and `Lone.allocateEach`.
-/

namespace EagerHeap

/-- Allocates `n` objects of a span one after the other. -/
def Action.allocateEach {σ : Type} (k : Hooks σ) (id : Nat) (s : Span) : Nat → Action σ (List Nat)
  | 0 => return []
  | n + 1 => do
    let x ← allocate k id s
    let xs ← allocateEach k id s n
    return x :: xs

theorem Census.blocksCarved_foldl
    (bs : List Block)
    (t : Census) :
    (bs.foldl count t).blocksCarved = t.blocksCarved := by
  induction bs generalizing t with
  | nil => rfl
  | cons b bs ih =>
      rw [List.foldl_cons, ih]
      cases b with
      | small => rfl
      | large =>
          rw [count]
          split <;> rfl

namespace Heap

variable {f g h : Heap} {id n x : Nat} {s : Span} {r : Except Failure Nat} {P : Act → Prop} {σ : Type}
  {k : Hooks σ}

/-- An occupancy report says how many blocks were carved. -/
theorem blocksCarved_census (h : Heap) : h.census.blocksCarved = h.arena.pages.next := by
  rw [census, ← Array.foldl_toList]
  exact Census.blocksCarved_foldl ..

/-- The only worker of the heap, with an empty free list for the span. -/
structure Lone (h : Heap) (id : Nat) (s : Span) : Prop where
  tended : h.Tended id
  alone : ∀ w ∈ h.workers, w.id = id ∧ w.freeLists.get s = []

/-! ### What an allocation keeps -/

/-- An object stays allocated through changes that free nothing. -/
theorem Steps.isAllocated
    (hsteps : Steps P h g)
    (hs : h.Sound)
    (hpark : ¬ P (.park x))
    (hreclaim : ¬ P (.reclaim x))
    (hx : h.arena.isAllocated x = true) :
    g.arena.isAllocated x = true := by
  obtain ⟨c, hc, hst⟩ := Arena.isAllocated_iff.1 hx
  obtain ⟨hd, hcell, hal⟩ := hsteps.stays hs hc hst hpark hreclaim
  exact Arena.isAllocated_iff.2 ⟨_, hcell, hal⟩

/-- A claim hands out a cell that held no object, and the objects stay. -/
theorem fresh_claim
    (hs : h.Sound)
    (hc : h.claim id s = (some x, g)) :
    (∀ y, h.arena.isAllocated y = true → g.arena.isAllocated y = true) ∧
      h.arena.isAllocated x = false ∧ g.arena.isAllocated x = true := by
  rcases claim_cases hs id s with ⟨y, hy, ho⟩ | ⟨hnone, -⟩
  · rw [hc] at hy ho
    obtain rfl : x = y := Option.some.inj hy
    obtain ⟨hfresh, c, hobject, -⟩ := ho.fresh hs
    exact ⟨fun y hy => ho.steps.isAllocated hs (by simp) (by simp) hy, hfresh,
      Arena.isAllocated_iff.2 ⟨c, hobject⟩⟩
  · rw [hc] at hnone
    cases hnone

/-- A search hands out a cell that held no object, and the objects stay. -/
theorem Claiming.fresh
    (hc : Claiming id s h r g)
    (ht : h.Tended id) :
    (∀ y, h.arena.isAllocated y = true → g.arena.isAllocated y = true) ∧
      ∀ x, r = .ok x → h.arena.isAllocated x = false ∧ g.arena.isAllocated x = true := by
  induction hc with
  | claimed hc =>
      obtain ⟨hkept, hx⟩ := fresh_claim ht.sound hc
      refine ⟨hkept, fun y hy => ?_⟩
      obtain rfl := Except.ok.inj hy
      exact hx
  | @moved h g h' b r hnone hb _ ih =>
      have hstays : ∀ y, h.arena.isAllocated y = true →
          (g.setCursor id s ⟨b, 0⟩).arena.isAllocated y = true :=
        fun y hy => (steps_moved ht.sound hb id).isAllocated ht.sound (by simp) (by simp) hy
      obtain ⟨hkept, hfresh⟩ := ih (ht.moved hnone hb)
      refine ⟨fun y hy => hkept y (hstays y hy), fun x hx => ⟨?_, (hfresh x hx).2⟩⟩
      -- What was no object after the cursor moved was none before.
      exact Bool.eq_false_iff.2 (mt (hstays x) (Bool.eq_false_iff.1 (hfresh x hx).1))
  | @carved h g b x a' hnone hempty hb hc =>
      have hcarve : Steps (· = .carve) h { h with arena := a' } := Steps.single rfl (.carve hb)
      obtain ⟨hkept, hfresh, hx⟩ := fresh_claim (ht.carved hnone hb).sound hc
      have hstays : ∀ y, h.arena.isAllocated y = true → a'.isAllocated y = true := fun y hy =>
        hcarve.isAllocated ht.sound (by simp) (by simp) hy
      refine ⟨fun y hy => hkept y (hstays y hy), fun y hy => ?_⟩
      obtain rfl := Except.ok.inj hy
      exact ⟨Bool.eq_false_iff.2 (mt (hstays x) (Bool.eq_false_iff.1 hfresh)), hx⟩
  | exhausted => exact ⟨fun _ hy => hy, fun x hx => by cases hx⟩

/-- The workers of the second heap are workers of the first one, with the same free lists. -/
structure SameLists (h g : Heap) : Prop where
  kept : ∀ v ∈ g.workers, ∃ w ∈ h.workers, v.id = w.id ∧ v.freeLists = w.freeLists

theorem SameLists.trans
    (hhg : h.SameLists g)
    (hgf : g.SameLists f) :
    h.SameLists f := by
  refine ⟨fun v hv => ?_⟩
  obtain ⟨u, hu, hid, hlists⟩ := hgf.kept v hv
  obtain ⟨w, hw, hid', hlists'⟩ := hhg.kept u hu
  exact ⟨w, hw, hid.trans hid', hlists.trans hlists'⟩

theorem sameLists_of_workers
    (hsame : g.workers = h.workers) :
    h.SameLists g :=
  ⟨fun v hv => ⟨v, hsame ▸ hv, rfl, rfl⟩⟩

theorem sameLists_setCursor (h : Heap) (id : Nat) (s : Span) (c : Cursor) :
    h.SameLists (h.setCursor id s c) := by
  refine ⟨fun v hv => ?_⟩
  obtain ⟨w, hw, rfl⟩ := mem_workers_modifyWorker hv
  refine ⟨w, hw, ?_⟩
  split <;> exact ⟨rfl, rfl⟩

theorem sameLists_count (h : Heap) (id : Nat) (c : Counter) (n : Nat) :
    h.SameLists (h.count id c n) := by
  refine ⟨fun v hv => ?_⟩
  obtain ⟨w, hw, rfl⟩ := mem_workers_modifyWorker hv
  refine ⟨w, hw, ?_⟩
  split <;> exact ⟨rfl, rfl⟩

theorem sameLists_claim (h : Heap) (id : Nat) (s : Span) : h.SameLists (h.claim id s).2 := by
  rw [claim]
  split
  · next b j _ =>
      refine SameLists.trans ?_ (sameLists_count ..)
      refine (sameLists_setCursor h id s ⟨b, j + 1⟩).trans (sameLists_of_workers ?_)
      exact workers_of_clients (clients_publish (h.setCursor id s ⟨b, j + 1⟩) b j
        (Arena.blockBase b + j * s.cellSize) s.cellSize)
  · exact sameLists_of_workers rfl

/-- A search moves cursors and counts, and leaves the workers with their free lists. -/
theorem Claiming.sameLists
    (hc : Claiming id s h r g) :
    h.SameLists g := by
  induction hc with
  | @claimed h g x hc =>
      have hclaim := sameLists_claim h id s
      rwa [hc] at hclaim
  | @moved h g h' b r hnone hb _ ih =>
      have hclients := clients_takePartial h s
      rw [hb] at hclients
      exact (sameLists_of_workers (workers_of_clients hclients)).trans
        ((sameLists_setCursor ..).trans ih)
  | @carved h g b x a' hnone hempty hb hc =>
      have hclaim := sameLists_claim ({ h with arena := a' }.setCursor id s ⟨b, 0⟩) id s
      rw [hc] at hclaim
      have hcarve : h.SameLists { h with arena := a' } := sameLists_of_workers rfl
      exact (hcarve.trans (sameLists_setCursor ..)).trans hclaim
  | exhausted => exact sameLists_of_workers rfl

theorem popFree_eq_none_iff
    (hf : h.Shelved) :
    h.popFree id s = (none, h) ↔ ∀ w ∈ h.workers, w.id = id → w.freeLists.get s = [] := by
  constructor
  · rintro hpop w hw rfl
    rw [popFree, hf.worker?_eq hw, Option.bind_some] at hpop
    cases hlist : w.freeLists.get s with
    | nil => rfl
    | cons e rest =>
        rw [hlist] at hpop
        cases hpop
  · intro hempty
    rw [popFree]
    split
    · next e he =>
        obtain ⟨w, hw, hhead⟩ := Option.bind_eq_some_iff.1 he
        obtain ⟨hmem, hid⟩ := worker?_eq_some hw
        rw [hempty w hmem hid] at hhead
        cases hhead
    · rfl

/-! ### Allocations of a worker that is alone -/

theorem Lone.claiming
    (hl : h.Lone id s) :
    Claiming id s h (ExceptT.run (allocateAlone id s) h).1
      (ExceptT.run (allocateAlone id s) h).2 := by
  rcases hl.tended.staffed.allocate_cases s with ⟨x, hrun, -⟩ | ⟨-, hc⟩
  · have hempty : h.popFree id s = (none, h) :=
      (popFree_eq_none_iff hl.tended.shelved).2 fun w hw _ => (hl.alone w hw).2
    rw [reuse_run, hempty] at hrun
    cases hrun
  · exact hc

theorem Lone.of_claiming
    (hl : h.Lone id s)
    (hc : Claiming id s h r g) :
    g.Lone id s := by
  refine ⟨hc.tended hl.tended, fun v hv => ?_⟩
  obtain ⟨w, hw, hid, hlists⟩ := hc.sameLists.kept v hv
  rw [hid, hlists]
  exact hl.alone w hw

theorem Lone.freeCells_eq_zero
    (hl : h.Lone id s)
    (htaken : h.TakenByOthers id s) :
    h.freeCells s = 0 := by
  refine (freeCells_eq_zero_iff hl.tended.sound.layout).2 fun b i hcell => ?_
  obtain ⟨other, c, hne, ⟨u, hu, rfl, -⟩, -⟩ := htaken b i hcell
  obtain ⟨w, hw, rfl⟩ := mem_stock_iff.1 hu
  exact hne (hl.alone w hw).1

/-- If there is a free cell, the only worker gets it and carves no block. -/
theorem Lone.allocate
    (hl : h.Lone id s)
    (hn : h.freeCells s = n + 1) :
    ∃ x g, ExceptT.run (allocateAlone id s) h = (.ok x, g) ∧ g.Lone id s ∧ g.freeCells s = n ∧
      g.arena.pages = h.arena.pages ∧ h.arena.isAllocated x = false ∧
      g.arena.isAllocated x = true ∧
      ∀ y, h.arena.isAllocated y = true → g.arena.isAllocated y = true := by
  have hc := hl.claiming
  rcases hrun : ExceptT.run (allocateAlone id s) h with ⟨r, g⟩
  rw [hrun] at hc
  rcases hc.outcome hl.tended with ⟨⟨x, hx⟩, hpages, hcount⟩ | ⟨htaken, -⟩
  · obtain rfl : r = .ok x := hx
    obtain ⟨hkept, hfresh⟩ := hc.fresh hl.tended
    obtain ⟨hbefore, hafter⟩ := hfresh x rfl
    refine ⟨x, g, rfl, hl.of_claiming hc, ?_, hpages, hbefore, hafter, hkept⟩
    have hcount : g.freeCells s + 1 = h.freeCells s := hcount
    omega
  · rw [hl.freeCells_eq_zero htaken] at hn
    cases hn

/-- If there is no free cell, the only worker carves a block, or there is none left. -/
theorem Lone.allocate_none
    (hl : h.Lone id s)
    (hn : h.freeCells s = 0) :
    (∃ x g, ExceptT.run (allocateAlone id s) h = (.ok x, g) ∧
        g.arena.pages.next = h.arena.pages.next + 1) ∨
      (ExceptT.run (allocateAlone id s) h).1 = .error (.outOfMemory blockSize) := by
  have hc := hl.claiming
  rcases hrun : ExceptT.run (allocateAlone id s) h with ⟨r, g⟩
  rw [hrun] at hc
  rcases hc.outcome hl.tended with ⟨-, -, hcount⟩ | ⟨-, ⟨⟨x, hx⟩, hnext⟩ | ⟨hout, -⟩⟩
  · rw [hn] at hcount
    cases hcount
  · obtain rfl : r = .ok x := hx
    exact Or.inl ⟨x, g, rfl, hnext⟩
  · exact Or.inr hout

theorem gives_of_follows
    {α : Type} {x : Action σ α} {u : Update α} {a : α}
    (hx : x.Follows u)
    (hu : ExceptT.run u h = (.ok a, g)) :
    x.Gives h a g := by
  rintro w rfl
  obtain ⟨w', hrun, hheap⟩ := hx w
  rw [hu] at hrun hheap
  exact ⟨w', hrun, hheap⟩

/-- The only worker allocates as many different objects as there are free cells, and carves no
block. -/
theorem Lone.allocateEach
    (hk : k.Silent)
    (hl : h.Lone id s)
    (hn : h.freeCells s = n) :
    ∃ xs g, (Action.allocateEach k id s n).Gives h xs g ∧ xs.length = n ∧ xs.Nodup ∧
      (∀ x ∈ xs, h.arena.isAllocated x = false ∧ g.arena.isAllocated x = true) ∧
      (∀ y, h.arena.isAllocated y = true → g.arena.isAllocated y = true) ∧
      g.arena.pages = h.arena.pages ∧ g.Lone id s ∧ g.freeCells s = 0 := by
  induction n generalizing h with
  | zero =>
      exact ⟨[], h, Action.gives_pure [] h, rfl, List.nodup_nil, fun _ hx => (nomatch hx),
        fun _ hy => hy, rfl, hl, hn⟩
  | succ n ih =>
      obtain ⟨x, f, hrun, hlone, hcount, hpages, hbefore, hafter, hkept⟩ := hl.allocate hn
      obtain ⟨xs, g, hgives, hlength, hnodup, hnew, hkept', hpages', hlone', hnone⟩ :=
        ih hlone hcount
      have hfirst := gives_of_follows (Action.follows_allocate hk id s) hrun
      refine ⟨x :: xs, g, hfirst.bind (hgives.bind (Action.gives_pure _ _)), by simp [hlength], ?_, ?_,
        fun y hy => hkept' y (hkept y hy), hpages'.trans hpages, hlone', hnone⟩
      · refine List.nodup_cons.2 ⟨fun hx => ?_, hnodup⟩
        rw [(hnew x hx).1] at hafter
        cases hafter
      · intro y hy
        rcases List.mem_cons.1 hy with rfl | hy
        · exact ⟨hbefore, hkept' y hafter⟩
        · obtain ⟨hfresh, hlater⟩ := hnew y hy
          exact ⟨Bool.eq_false_iff.2 (mt (hkept y) (Bool.eq_false_iff.1 hfresh)), hlater⟩

end Heap

end EagerHeap
