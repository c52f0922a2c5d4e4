import EagerHeap.Proofs.Run.Recycled
/-!
# Slow allocations and the peak of the live objects

While a worker allocates and frees objects of a span, an allocation reuses the address that was freed
last. It is slow only if more objects live than ever before. The slow allocations are thus as many as
the objects that lived at once at most, and the bytes towards the next cycle are those of so many cells.

Main results: `Recycles.allocated`, `Recycles.accepted` and `slow_allocations_eq_peak`.
-/

namespace EagerHeap

/-- When it is told of events, the client makes moves that satisfy a condition. -/
def Hooks.Plays {σ : Type} (k : Hooks σ) (R : Machine → Move → Prop) : Prop :=
  ∀ e (w : World σ) (m : Machine), m.Proper → m.heap = w.heap →
    ∃ zs, Machine.Legal R m zs ∧ (m.run zs).heap = (k.onEvent e w).heap

/-- A client that leaves the heap alone makes no moves. -/
theorem Hooks.Silent.plays
    {σ : Type} {k : Hooks σ}
    (hk : k.Silent)
    (R : Machine → Move → Prop) :
    k.Plays R :=
  fun e w _ _ hheap => ⟨[], trivial, hheap.trans (hk.event e w).symm⟩

namespace Machine

open Heap

variable {σ : Type} {hooks : Hooks σ} {P : Machine → Move → Prop} {m m₀ : Machine} {ys : List Move}
  {id x size : Nat} {s : Span} {t : Turnover} {memory : Nat} {c : Config} {h : Heap}

/-- A run consists of elementary changes. -/
theorem Legal.steps
    (hl : Legal P m ys)
    (hm : m.Proper) :
    Steps (fun _ => True) m.heap (m.run ys).heap := by
  induction ys generalizing m with
  | nil => exact Steps.refl m.heap
  | cons y ys ih => exact ((hm.steps hl.1).mono fun _ _ => trivial).trans (ih hl.2.2 (hm.apply hl.1))

theorem Recycles.aside
    (hrun : Recycles id s m₀ t m)
    (hl : Legal (fun m y => m.Aside id s t.live y) m ys) :
    Recycles id s m₀ t (m.run ys) :=
  hl.preserves hrun fun _ _ hrun hy ha => hrun.between hy ha

/-- The worker keeps searching while it looks for a block, and while the client is told of one. -/
theorem lasting_recycles
    (hm : m₀.Recycled id s {})
    (hsearch : t.searching = true)
    (hplays : hooks.Plays fun m y => m.Aside id s t.live y) :
    Action.Lasting hooks id s fun g => ∃ m, m.heap = g ∧ Recycles id s m₀ t m := by
  have hpiece : ∀ {m : Machine} {y : Move}, Recycles id s m₀ t m → m.Allows y → y.Searches id s →
      m.handsOut y = none → Recycles id s m₀ t (m.apply y) := fun hrun hy hsearches hnone =>
    hrun.piece hy (.searched hsearch hsearches hnone)
      (searched_shelf (hrun.recycled hm).proper hsearches hnone).2
  constructor
  case sound =>
    rintro _ ⟨m, rfl, hrun⟩
    exact (hrun.recycled hm).proper.sound
  case event =>
    rintro e w ⟨m, hheap, hrun⟩
    have hproper := (hrun.recycled hm).proper
    obtain ⟨zs, hl, hzs⟩ := hplays e w m hproper hheap
    exact ⟨⟨m.run zs, hzs, hrun.aside hl⟩, hzs ▸ hheap ▸ hl.steps hproper⟩
  case taken =>
    rintro _ i g ⟨m, rfl, hrun⟩ htake
    exact ⟨m.apply (.takePartial s), congrArg Prod.snd htake, hpiece hrun trivial rfl rfl⟩
  case carved =>
    rintro _ i g ⟨m, rfl, hrun⟩ hcarve
    exact ⟨m.apply (.carveBlock s), congrArg Prod.snd hcarve, hpiece hrun trivial rfl rfl⟩
  case moved =>
    rintro _ i ⟨m, rfl, hrun⟩ hspan
    exact ⟨m.apply (.setCursor id s i), rfl, hpiece hrun hspan ⟨rfl, rfl⟩ rfl⟩

/-- An allocation of the worker, with what its client does meanwhile, continues the sequence. -/
theorem Recycles.allocated
    {client : σ} {w : World σ}
    (hrun : Recycles id s m₀ t m)
    (hm : m₀.Recycled id s {})
    (hready : t.searching = false)
    (hplays : hooks.Plays fun m y => m.Aside id s t.live y)
    (halloc : ExceptT.run (Action.allocate hooks id s) ⟨m.heap, client⟩ = (.ok x, w)) :
    ∃ slow bytes m', m'.heap = w.heap ∧ Recycles id s m₀ ((t.get x).charge slow bytes) m' := by
  have hr := hrun.recycled hm
  rw [Action.allocate, run_bind_operation, Action.run_update] at halloc
  rcases hr.shelved.reuse_run_cases hr.proper.sound id s with ⟨-, hmiss⟩ | ⟨e, g, -, hpop⟩
  · -- The worker searches from now on, until a cell is claimed.
    have hmissed : m.handsOut (.reuse id s) = none :=
      congrArg (fun r : Except Failure (Option Nat) × Heap => r.1.toOption.join) hmiss
    have hsame : (m.apply (.reuse id s)).heap = m.heap := congrArg Prod.snd hmiss
    have hfree : m.heap.Costs (m.apply (.reuse id s)).heap 0 0 := by
      rw [hsame]
      exact Costs.refl m.heap
    have hsearch : Recycles id s m₀ { t with searching := true } (m.apply (.reuse id s)) :=
      hrun.piece (y := .reuse id s) trivial (.missed hready hmissed) hfree
    have hlasting := lasting_recycles (t := { t with searching := true }) hm rfl hplays
    rw [hmiss] at halloc
    obtain ⟨f, ⟨m', rfl, hsearching⟩, hclaim⟩ :=
      hlasting.ensures_search ⟨m.heap, client⟩ x w ⟨_, hsame, hsearch⟩ halloc
    have hx : m'.handsOut (.claim id s) = some x := congrArg Prod.fst hclaim
    have hr' := hsearching.recycled hm
    have hpaid := (hr'.shelved.claim_taken hr'.proper.sound hr'.lives hx).2
    exact ⟨1, s.cellSize, m'.apply (.claim id s), congrArg Prod.snd hclaim,
      hsearching.piece (y := .claim id s) trivial (.claimed rfl hx) hpaid⟩
  · have hx : m.handsOut (.reuse id s) = some e.addr :=
      congrArg (fun r : Except Failure (Option Nat) × Heap => r.1.toOption.join) hpop
    obtain ⟨-, -, -, -, hfree⟩ := hr.shelved.reuse_popped hr.proper.sound hx
    rw [hpop] at halloc
    obtain ⟨hok, rfl⟩ := Prod.mk.inj halloc
    obtain rfl := Except.ok.inj hok
    exact ⟨0, 0, m.apply (.reuse id s), congrArg Prod.snd hpop,
      hrun.piece (y := .reuse id s) trivial (.reused hready hx) hfree⟩

/-- An accepted eager free of the worker continues the sequence. -/
theorem Recycles.accepted
    {client : σ} {w : World σ} {sh : Shape}
    (hrun : Recycles id s m₀ t m)
    (hm : m₀.Recycled id s {})
    (hready : t.searching = false)
    (hx : x ∈ t.live)
    (hfree : ExceptT.run (Action.tryFree hooks id x size sh) ⟨m.heap, client⟩ = (.ok true, w)) :
    ∃ m', m'.heap = w.heap ∧ Recycles id s m₀ (t.put x) m' := by
  have hr := hrun.recycled hm
  have hchange : ExceptT.run (Action.change (·.free id x size (some sh)) : Action σ _)
      ⟨m.heap, client⟩ = (.ok (m.heap.free id x size (some sh)).1,
        ⟨(m.heap.free id x size (some sh)).2, client⟩) := rfl
  rw [Action.tryFree, run_bind_operation, hchange] at hfree
  rcases hres : m.heap.free id x size (some sh) with ⟨_ | reason, g⟩
  · rw [hres] at hfree
    obtain ⟨-, rfl⟩ := Prod.mk.inj hfree
    have haccept : (m.heap.free id x size (some sh)).1 = none := congrArg Prod.fst hres
    have hcost := (free_pushed hr.proper.sound hr.lives (hr.holds x hx) haccept).2
    exact ⟨m.apply (.free id x size (some sh)), congrArg Prod.snd hres,
      hrun.piece (y := .free id x size (some sh)) trivial (.freed hready hx haccept) hcost⟩
  · rw [hres] at hfree
    cases hfree

/-- If an address was freed and not reused yet, an allocation gives the latest one. -/
theorem Recycled.reuses
    {rest : List Nat}
    (hr : m.Recycled id s t)
    (hfreed : t.freed = x :: rest)
    (hooks : Hooks σ) (client : σ) :
    (ExceptT.run (Action.allocate hooks id s) ⟨m.heap, client⟩).1 = .ok x := by
  rw [Action.allocate, run_bind_operation, Action.run_update]
  rcases hr.shelved.reuse_run_cases hr.proper.sound id s with ⟨hnone, -⟩ | ⟨e, g, hp, hpop⟩
  · have hshelf := hr.shelf
    rw [shelf_eq_nil_of_popFree hnone, hfreed] at hshelf
    cases hshelf
  · have hshelf := hr.shelf
    rw [shelf_popFree hp, hfreed] at hshelf
    obtain ⟨rfl, -⟩ := List.cons.inj hshelf
    rw [hpop]
    rfl

/-- Let a worker with an empty free list for a span allocate and free objects of the span, with other
moves in between that leave these objects alone. It counts as many slow allocations as objects lived at
once at most, and the bytes of so many cells. The next allocation reuses the address that was freed last,
and allocations and accepted frees continue the sequence, whatever else the client does meanwhile. -/
theorem slow_allocations_eq_peak
    (hc : Heap.create memory c = .ok h)
    (hl : Legal (fun _ _ => True) (start h) ys)
    (hid : ∃ w ∈ ((start h).run ys).heap.workers, w.id = id)
    (hempty : ((start h).run ys).heap.shelf id s = [])
    (hrun : Recycles id s ((start h).run ys) t m)
    (hooks : Hooks σ) (client : σ) :
    t.slow = t.peak ∧ t.bytes = t.peak * s.cellSize ∧
      t.live.length + t.freed.length = t.peak ∧
      t.live.Nodup ∧ (∀ x ∈ t.live, m.heap.HoldsAt s x) ∧
      (∀ x rest, t.freed = x :: rest →
        (ExceptT.run (Action.allocate hooks id s) ⟨m.heap, client⟩).1 = .ok x) ∧
      (t.searching = false → hooks.Plays (fun m y => m.Aside id s t.live y) →
        ∀ x w, ExceptT.run (Action.allocate hooks id s) ⟨m.heap, client⟩ = (.ok x, w) →
          ∃ slow bytes m', m'.heap = w.heap ∧
            Recycles id s ((start h).run ys) ((t.get x).charge slow bytes) m') ∧
      (t.searching = false → ∀ x ∈ t.live, ∀ size sh w,
        ExceptT.run (Action.tryFree hooks id x size sh) ⟨m.heap, client⟩ = (.ok true, w) →
          ∃ m', m'.heap = w.heap ∧ Recycles id s ((start h).run ys) (t.put x) m') := by
  have hm : ((start h).run ys).Recycled id s {} :=
    ⟨hl.proper (proper_start hc), hl.shelved (proper_start hc) (shelved_start hc), hid,
      congrArg (List.map FreeEntry.addr) hempty, List.forall_mem_nil _, Turnover.balanced_empty _⟩
  have hr := hrun.recycled hm
  exact ⟨hr.balanced.slow, hr.balanced.bytes, hr.balanced.level, hr.balanced.nodup, hr.holds,
    fun x rest hfreed => hr.reuses hfreed hooks client,
    fun hready hplays x w halloc => hrun.allocated hm hready hplays halloc,
    fun hready x hx size sh w hfree => hrun.accepted hm hready hx hfree⟩

/-- A worker with an empty heap allocates an object and frees it, allocates two and frees the second
one, while another worker comes. Two objects lived at once, and two allocations were slow. The next
allocation reuses the second cell. -/
theorem slow_allocations_eq_peak_two :
    let m₀ := (start (.empty fourBlocks)).run [.addWorker]
    ∃ t m w, Recycles 0 quarterBlock m₀ t m ∧ t.live = [Arena.start] ∧
      t.freed = [Arena.start + 4096] ∧ t.peak = 2 ∧ t.slow = 2 ∧ t.bytes = 2 * 4096 ∧
      m.heap.workers.length = 2 ∧
      ExceptT.run (Action.allocate idleClient 0 quarterBlock) ⟨m.heap, ()⟩ =
        (.ok (Arena.start + 4096), w) ∧
      ∃ t' m', m'.heap = w.heap ∧ t'.live = [Arena.start + 4096, Arena.start] ∧
        Recycles 0 quarterBlock m₀ t' m' := by
  dsimp only
  have hlegal : Legal (fun _ _ => True) (start (.empty fourBlocks)) [.addWorker] := by
    decide +kernel
  have hid : ∃ w ∈ ((start (.empty fourBlocks)).run [.addWorker]).heap.workers, w.id = 0 := by
    decide +kernel
  have hempty : ((start (.empty fourBlocks)).run [.addWorker]).heap.shelf 0 quarterBlock = [] := by
    decide +kernel
  have hstart : Recycles 0 quarterBlock ((start (.empty fourBlocks)).run [.addWorker]) {}
      ((start (.empty fourBlocks)).run [.addWorker]) := Recycles.start
  -- The first allocation carves a block.
  have hmissed := hstart.piece (y := .reuse 0 quarterBlock) trivial
    (.missed rfl (by decide +kernel)) (show Costs _ _ 0 0 by decide +kernel)
  have hcarved := hmissed.piece (y := .carveBlock quarterBlock) trivial
    (.searched rfl rfl rfl) (show Costs _ _ 0 0 by decide +kernel)
  have hcursor := hcarved.piece (y := .setCursor 0 quarterBlock 0) (by decide +kernel)
    (.searched rfl ⟨rfl, rfl⟩ rfl) (show Costs _ _ 0 0 by decide +kernel)
  have hclaimed := hcursor.piece (y := .claim 0 quarterBlock) trivial
    (.claimed rfl (show _ = some Arena.start by decide +kernel))
    (show Costs _ _ 1 4096 by decide +kernel)
  have hcame := hclaimed.between (y := .addWorker) trivial
    ⟨nofun, ⟨nofun, nofun⟩, ⟨nofun, nofun⟩, fun _ _ hp => hp.1, nofun⟩
  have hfreed := hcame.piece (y := .free 0 Arena.start 4096 (some .scan)) trivial
    (.freed rfl (List.mem_singleton_self _) (by decide +kernel))
    (show Costs _ _ 0 0 by decide +kernel)
  -- The second allocation reuses the cell, and the third one needs another cell.
  have hreused := hfreed.piece (y := .reuse 0 quarterBlock) trivial
    (.reused rfl (show _ = some Arena.start by decide +kernel))
    (show Costs _ _ 0 0 by decide +kernel)
  have hmissed' := hreused.piece (y := .reuse 0 quarterBlock) trivial
    (.missed rfl (by decide +kernel)) (show Costs _ _ 0 0 by decide +kernel)
  have hclaimed' := hmissed'.piece (y := .claim 0 quarterBlock) trivial
    (.claimed rfl (show _ = some (Arena.start + 4096) by decide +kernel))
    (show Costs _ _ 1 4096 by decide +kernel)
  have hall := hclaimed'.piece (y := .free 0 (Arena.start + 4096) 4096 (some .scan)) trivial
    (.freed rfl (List.mem_cons_self ..) (by decide +kernel))
    (show Costs _ _ 0 0 by decide +kernel)
  obtain ⟨hslow, hbytes, -, -, -, hnext, hcontinue, -⟩ :=
    slow_allocations_eq_peak create_fourBlocks hlegal hid hempty hall idleClient ()
  have halloc := Prod.ext (hnext (Arena.start + 4096) [] rfl) (Eq.refl _)
  obtain ⟨slow, bytes, m', hheap, hrun⟩ := hcontinue rfl (silent_idleClient.plays _) _ _ halloc
  exact ⟨_, _, _, hall, rfl, rfl, rfl, hslow, hbytes, by decide +kernel, halloc, _, m', hheap, rfl,
    hrun⟩

end Machine

end EagerHeap
