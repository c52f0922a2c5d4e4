import EagerHeap.Proofs.Heap.Births
import EagerHeap.Proofs.Heap.Clients
/-!
# Free lists

Every entry of a free list names a cached cell, and no other entry of any free list names the same
one. So a worker never finds a cell in its free list that is in use, and the check that it makes
before it hands out the cell does not fail.

Main results: `Shelved.free`, `Shelved.reuse` and `Shelved.flushWorker` for the operations on free
lists, and `Shelved.reuse_ne_error`.
-/

namespace EagerHeap

namespace Heap

/-- The address is that of a cell that was freed eagerly. -/
def CachedAt (h : Heap) (x : Nat) : Prop :=
  ∃ c, h.arena.cell? x = some c ∧ c.header.state = .cached

/-- Workers have numbers of their own, and the entries of their free lists name different cached
cells. -/
structure Shelved (h : Heap) : Prop where
  ids : (h.workers.map Worker.id).Nodup
  fresh : ∀ w ∈ h.workers, w.id < h.nextWorker
  cached : ∀ w ∈ h.workers, ∀ s, ∀ e ∈ w.freeLists.get s, h.CachedAt e.addr
  nodup : ∀ w ∈ h.workers, ∀ s, ((w.freeLists.get s).map FreeEntry.addr).Nodup
  apart : ∀ w ∈ h.workers, ∀ v ∈ h.workers, ∀ s t, ∀ e ∈ w.freeLists.get s,
    ∀ d ∈ v.freeLists.get t, e.addr = d.addr → w.id = v.id ∧ s = t

variable {h h' g : Heap} {x y id : Nat} {c : Cell} {s : Span} {e : FreeEntry} {P : Act → Prop}
  {w v : Worker} {f : Worker → Worker}

/-! ### Workers -/

theorem Shelved.worker_unique
    (hf : h.Shelved)
    (hw : w ∈ h.workers)
    (hv : v ∈ h.workers)
    (hid : w.id = v.id) :
    w = v :=
  List.inj_on_of_nodup_map hf.ids hw hv hid

theorem worker?_eq_some
    (hw : h.worker? id = some w) :
    w ∈ h.workers ∧ w.id = id :=
  ⟨List.mem_of_find?_eq_some hw, by simpa using List.find?_some hw⟩

theorem mem_workers_modifyWorker
    (hv : v ∈ (h.modifyWorker id f).workers) :
    ∃ w ∈ h.workers, v = if w.id = id then f w else w := by
  obtain ⟨w, hw, rfl⟩ := List.mem_map.1 hv
  exact ⟨w, hw, rfl⟩

theorem ids_modifyWorker
    (hid : ∀ w, (f w).id = w.id) :
    (h.modifyWorker id f).workers.map Worker.id = h.workers.map Worker.id := by
  simp only [modifyWorker, List.map_map]
  refine List.map_congr_left fun w _ => ?_
  simp only [Function.comp_apply]
  split
  · exact hid w
  · rfl

/-! ### Cached cells -/

/-- A cached cell stays cached until it is handed out or its entry is given up. -/
theorem Steps.cachedAt
    (hsteps : Steps P h h')
    (hs : h.Sound)
    (hx : h.CachedAt x)
    (hbirth : ¬ P (.birth x))
    (huncache : ¬ P (.uncache x)) :
    h'.CachedAt x := by
  refine (hsteps.induct (R := fun g => g.CachedAt x) hs hx ?_).2
  rintro g l g' hg ⟨c, hc, hst⟩ hl ht
  have hchange := ht.cellChange hg x
  rw [hc] at hchange
  cases ho : g'.arena.cell? x with
  | none =>
      rw [ho] at hchange
      cases hchange with
      | removed _ hu =>
          rw [(Header.isUnreached_iff.1 hu).1] at hst
          cases hst
  | some d =>
      rw [ho] at hchange
      refine ⟨d, ho, ?_⟩
      cases hchange with
      | kept hhd =>
          cases hhd with
          | birth => exact absurd hl hbirth
          | uncache => exact absurd hl huncache
          | park => rfl
          | reclaim hu =>
              rw [(Header.isUnreached_iff.1 hu).1] at hst
              cases hst
          | _ => exact hst

theorem not_cachedAt_of_cell?
    (hc : h.arena.cell? x = some c)
    (hst : c.header.state ≠ .cached) :
    ¬ h.CachedAt x := by
  rintro ⟨d, hd, hcached⟩
  rw [hc] at hd
  obtain rfl := Option.some.inj hd
  exact hst hcached

/-- A run is handed out where no cell starts. -/
theorem carveRun_eq_some
    {n : Nat} {shape : Shape}
    (hs : h.Sound)
    (hn : 0 < n)
    (hx : ((carveRun n shape).run h).1 = .ok (some x)) :
    h.arena.cell? x = none := by
  rw [carveRun_run] at hx
  rcases hc : h.arena.carveRun n with ⟨_ | i, a'⟩
  · rw [hc] at hx
    cases hx
  · have hxi : x = Arena.blockBase i := by
      simp only [hc] at hx
      split at hx
      · split at hx
        · cases hx
          rfl
        · cases hx
      · cases hx
    have htaken := hs.layout.runTaken hn hc
    obtain ⟨hself, hother⟩ := htaken.open_blocks hn shape (Arena.blockBase i) (n * blockSize)
      h.phase.allocationColor
    rw [hxi]
    exact (hs.layout.cell?_openRun (htaken.open_layout hs.layout hn shape _ _ _) hn htaken rfl
      hself hother).1

/-! ### Changes that add no entry -/

/-- Free lists that lose entries, or none, stay apart. -/
theorem Shelved.shrink
    (hf : h.Shelved)
    (hids : (h'.workers.map Worker.id).Sublist (h.workers.map Worker.id))
    (hnext : h'.nextWorker = h.nextWorker)
    (hlists : ∀ v ∈ h'.workers, ∃ w ∈ h.workers, w.id = v.id ∧
      ∀ s, (v.freeLists.get s).Sublist (w.freeLists.get s))
    (hcached : ∀ v ∈ h'.workers, ∀ s, ∀ e ∈ v.freeLists.get s, h'.CachedAt e.addr) :
    h'.Shelved := by
  refine ⟨hf.ids.sublist hids, ?_, hcached, ?_, ?_⟩
  · intro v hv
    obtain ⟨w, hw, hid, -⟩ := hlists v hv
    rw [hnext, ← hid]
    exact hf.fresh w hw
  · intro v hv s
    obtain ⟨w, hw, -, hsub⟩ := hlists v hv
    exact (hf.nodup w hw s).sublist ((hsub s).map _)
  · intro v hv u hu s t e he d hd haddr
    obtain ⟨w, hw, hid, hsub⟩ := hlists v hv
    obtain ⟨w', hw', hid', hsub'⟩ := hlists u hu
    rw [← hid, ← hid']
    exact hf.apart w hw w' hw' s t e ((hsub s).mem he) d ((hsub' t).mem hd) haddr

theorem Shelved.frame
    (hf : h.Shelved)
    (hworkers : h'.workers = h.workers)
    (hnext : h'.nextWorker = h.nextWorker)
    (hcached : ∀ w ∈ h.workers, ∀ s, ∀ e ∈ w.freeLists.get s, h'.CachedAt e.addr) :
    h'.Shelved := by
  refine hf.shrink (by rw [hworkers]) hnext ?_ ?_
  · intro v hv
    exact ⟨v, hworkers ▸ hv, rfl, fun s => List.Sublist.refl _⟩
  · rw [hworkers]
    exact hcached

/-- What is no change of workers, headers and blocks keeps the free lists. -/
theorem Shelved.of_arena
    (hf : h.Shelved)
    (hworkers : h'.workers = h.workers)
    (hnext : h'.nextWorker = h.nextWorker)
    (harena : h'.arena = h.arena) :
    h'.Shelved := by
  refine hf.frame hworkers hnext fun w hw s e he => ?_
  rw [CachedAt, harena]
  exact hf.cached w hw s e he

theorem Shelved.modifyWorker
    (hf : h.Shelved)
    (id : Nat)
    (hid : ∀ w, (f w).id = w.id)
    (hlists : ∀ w s, ((f w).freeLists.get s).Sublist (w.freeLists.get s)) :
    (h.modifyWorker id f).Shelved := by
  have hfrom : ∀ v ∈ (h.modifyWorker id f).workers, ∃ w ∈ h.workers, w.id = v.id ∧
      ∀ s, (v.freeLists.get s).Sublist (w.freeLists.get s) := by
    intro v hv
    obtain ⟨w, hw, rfl⟩ := mem_workers_modifyWorker hv
    refine ⟨w, hw, ?_⟩
    split
    · exact ⟨(hid w).symm, hlists w⟩
    · exact ⟨rfl, fun s => List.Sublist.refl _⟩
  refine hf.shrink (by rw [ids_modifyWorker hid]) rfl hfrom fun v hv s e he => ?_
  obtain ⟨w, hw, -, hsub⟩ := hfrom v hv
  exact hf.cached w hw s e ((hsub s).mem he)

theorem Shelved.count
    (hf : h.Shelved)
    (id : Nat) (k : Counter) (n : Nat) :
    (h.count id k n).Shelved :=
  hf.modifyWorker id (fun _ => rfl) fun _ _ => List.Sublist.refl _

theorem Shelved.setCursor
    (hf : h.Shelved)
    (id : Nat) (s : Span) (k : Cursor) :
    (h.setCursor id s k).Shelved :=
  hf.modifyWorker id (fun _ => rfl) fun _ _ => List.Sublist.refl _

theorem Shelved.noteAllocation
    (hf : h.Shelved)
    (bytes : Nat) :
    (h.noteAllocation bytes).Shelved :=
  hf.of_arena rfl rfl rfl

theorem Shelved.modifyScope
    (hf : h.Shelved)
    (k : Nat) (f : Scope → Scope) :
    (h.modifyScope k f).Shelved :=
  hf.of_arena rfl rfl rfl

theorem Shelved.modifyRegistry
    (hf : h.Shelved)
    (r : Nat) (f : Registry → Registry) :
    (h.modifyRegistry r f).Shelved :=
  hf.of_arena rfl rfl rfl

theorem Shelved.addWorker
    (hf : h.Shelved) :
    h.addWorker.2.Shelved := by
  have hempty : ∀ s, ({ id := h.nextWorker : Worker }.freeLists.get s) = [] := fun s =>
    SpanTable.get_fill _ s
  refine ⟨?_, ?_, ?_, ?_, ?_⟩
  · simp only [Heap.addWorker, List.map_append, List.map_cons, List.map_nil]
    refine List.nodup_append.2 ⟨hf.ids, List.nodup_singleton _, ?_⟩
    rintro a ha b hb rfl
    obtain ⟨w, hw, rfl⟩ := List.mem_map.1 ha
    exact Nat.ne_of_lt (hf.fresh w hw) (List.mem_singleton.1 hb)
  · intro w hw
    rcases List.mem_append.1 hw with hw | hw
    · exact Nat.lt_succ_of_lt (hf.fresh w hw)
    · rw [List.mem_singleton.1 hw]
      exact Nat.lt_succ_self _
  · intro w hw s e he
    rcases List.mem_append.1 hw with hw | hw
    · exact hf.cached w hw s e he
    · rw [List.mem_singleton.1 hw, hempty] at he
      cases he
  · intro w hw s
    rcases List.mem_append.1 hw with hw | hw
    · exact hf.nodup w hw s
    · rw [List.mem_singleton.1 hw, hempty]
      exact List.nodup_nil
  · intro w hw v hv s t e he d hd haddr
    rcases List.mem_append.1 hw with hw | hw
    · rcases List.mem_append.1 hv with hv | hv
      · exact hf.apart w hw v hv s t e he d hd haddr
      · rw [List.mem_singleton.1 hv, hempty] at hd
        cases hd
    · rw [List.mem_singleton.1 hw, hempty] at he
      cases he

theorem Shelved.retireWorker
    (hf : h.Shelved)
    (hr : h.retireWorker id = .ok h') :
    h'.Shelved := by
  have hkept : h'.workers.Sublist h.workers ∧ h'.nextWorker = h.nextWorker ∧
      h'.arena = h.arena := by
    rcases retireWorker_cases hr with rfl | ⟨t, rfl⟩
    · exact ⟨List.Sublist.refl _, rfl, rfl⟩
    · exact ⟨List.filter_sublist, rfl, rfl⟩
  obtain ⟨hsub, hnext, harena⟩ := hkept
  refine hf.shrink (hsub.map _) hnext ?_ ?_
  · exact fun v hv => ⟨v, hsub.mem hv, rfl, fun s => List.Sublist.refl _⟩
  · intro v hv s e he
    rw [CachedAt, harena]
    exact hf.cached v (hsub.mem hv) s e he

/-! ### Handing out cells of free lists -/

/-- The entry that a worker takes off its free list names a cached cell, and no entry that is left
names the same cell. -/
theorem Shelved.popFree
    (hf : h.Shelved)
    (hp : h.popFree id s = (some e, g)) :
    g.Shelved ∧ g.CachedAt e.addr ∧
      ∀ v ∈ g.workers, ∀ t, ∀ d ∈ v.freeLists.get t, d.addr ≠ e.addr := by
  unfold Heap.popFree at hp
  split at hp
  case h_2 => cases hp
  next e' hhead =>
    cases hp
    obtain ⟨w, hfound, hfirst⟩ := Option.bind_eq_some_iff.1 hhead
    obtain ⟨hw, rfl⟩ := worker?_eq_some hfound
    have hsub : ∀ (u : Worker) t,
        ((u.freeLists.modify s List.tail).get t).Sublist (u.freeLists.get t) := by
      intro u t
      by_cases hts : t = s
      · rw [hts, SpanTable.get_modify_self]
        exact List.tail_sublist _
      · rw [SpanTable.get_modify_of_ne _ _ hts]
    have hmem := List.mem_of_mem_head? hfirst
    refine ⟨hf.modifyWorker w.id (fun _ => rfl) hsub, hf.cached w hw s e hmem, ?_⟩
    intro v hv t d hd haddr
    obtain ⟨u, hu, rfl⟩ := mem_workers_modifyWorker hv
    have hdu : d ∈ u.freeLists.get t := by
      split at hd
      · exact (hsub u t).mem hd
      · exact hd
    obtain ⟨hid, rfl⟩ := hf.apart w hw u hu s t e hmem d hdu haddr.symm
    obtain rfl := hf.worker_unique hw hu hid
    -- Both entries are in one list, the taken one at its head.
    rw [if_pos rfl, SpanTable.get_modify_self] at hd
    obtain ⟨rest, hrest⟩ := List.head?_eq_some_iff.1 hfirst
    have hnodup := hf.nodup w hw s
    rw [hrest, List.tail_cons] at hd
    rw [hrest, List.map_cons, List.nodup_cons] at hnodup
    exact hnodup.1 (haddr ▸ List.mem_map_of_mem hd)

/-- The check of a worker that its free list names a cached cell succeeds. -/
theorem Shelved.header?_popFree
    (hs : h.Sound)
    (hf : h.Shelved)
    (hp : h.popFree id s = (some e, g)) :
    (g.arena.header? e.block e.cell).any (·.state = .cached) = true := by
  obtain ⟨hfits, hstill⟩ := popFree_cases hs.stocked hp
  obtain ⟨-, ⟨c, hc, hst⟩, -⟩ := hf.popFree hp
  obtain ⟨hd, hhd, hcell⟩ := hfits.cell? (hstill.steps.sound hs).layout
  rw [hcell] at hc
  obtain rfl := Option.some.inj hc
  rw [hhd]
  simpa using hst

theorem Shelved.reuse_ne_error
    (hs : h.Sound)
    (hf : h.Shelved)
    (id : Nat) (s : Span) (o : Failure) :
    ((reuse id s).run h).1 ≠ .error o := by
  rw [reuse_run]
  rcases hp : h.popFree id s with ⟨_ | e, g⟩
  · simp
  · simp [hf.header?_popFree hs hp]

theorem Shelved.publish
    (hs : h.Sound)
    (hf : h.Shelved)
    (hx : h.arena.cell? x = some c)
    (hst : c.header.state ≠ .allocated)
    (hne : ∀ w ∈ h.workers, ∀ s, ∀ e ∈ w.freeLists.get s, e.addr ≠ x) :
    (h.publish c.block c.index x c.size).Shelved := by
  have hborn : Steps (· = .birth x) h (h.publish c.block c.index x c.size) :=
    Steps.single rfl (.birthCell hx hst)
  have hclients := clients_publish h c.block c.index x c.size
  refine hf.frame (workers_of_clients hclients) (nextWorker_of_clients hclients) ?_
  intro w hw s e he
  refine hborn.cachedAt hs (hf.cached w hw s e he) ?_ Act.noConfusion
  intro hbirth
  exact hne w hw s e he (Act.birth.inj hbirth)

theorem Shelved.reuse
    (hs : h.Sound)
    (hf : h.Shelved)
    (id : Nat) (s : Span) :
    ((Heap.reuse id s).run h).2.Shelved := by
  rw [reuse_run]
  rcases hp : h.popFree id s with ⟨_ | e, g⟩
  · unfold Heap.popFree at hp
    split at hp <;> cases hp
    exact hf
  · obtain ⟨hfits, hstill⟩ := popFree_cases hs.stocked hp
    obtain ⟨hg, ⟨c, hc, hst⟩, hne⟩ := hf.popFree hp
    have hsound := hstill.steps.sound hs
    obtain ⟨hd, -, hcell⟩ := hfits.cell? hsound.layout
    rw [hcell] at hc
    obtain rfl := Option.some.inj hc
    simp only [hf.header?_popFree hs hp, if_true]
    refine (hg.publish hsound hcell ?_ hne).count _ _ _
    rw [hst]
    exact CellState.noConfusion

theorem Shelved.claim
    (hs : h.Sound)
    (hf : h.Shelved)
    (id : Nat) (s : Span) :
    (h.claim id s).2.Shelved := by
  unfold Heap.claim
  split
  · next b k hc =>
      dsimp only
      obtain ⟨hspan, hk, hd, hhd, hfree⟩ := claimable?_cases hs hc
      obtain ⟨hd', hhd', hcell⟩ := hs.layout.cell?_small hspan hk
      rw [hhd] at hhd'
      obtain rfl := Option.some.inj hhd'
      have hmoved := hf.setCursor id s ⟨b, k + 1⟩
      have hstill : Still h (h.setCursor id s ⟨b, k + 1⟩) := still_setCursor hspan
      have hsound := hstill.steps.sound hs
      have hcell' : (h.setCursor id s ⟨b, k + 1⟩).arena.cell? _ = _ := hcell
      have hnot := not_cachedAt_of_cell? hcell' (by simp [hfree])
      have hpublished := hmoved.publish hsound hcell' (by simp [hfree]) fun w hw t e he haddr =>
        hnot (haddr ▸ hmoved.cached w hw t e he)
      exact (hpublished.noteAllocation s.cellSize).count _ _ _
  · exact hf

/-! ### Eager frees -/

theorem Shelved.park
    (hs : h.Sound)
    (hf : h.Shelved)
    (hx : h.arena.cell? x = some c)
    (hst : c.header.state = .allocated)
    (hflag : c.header.hasFlag Header.sideRecord = false)
    (hspan : h.arena.HasSpan c.block s)
    (id : Nat) :
    (h.park id s ⟨x, c.block, c.index⟩).Shelved := by
  have hparked : Steps (· = .park x) h (h.park id s ⟨x, c.block, c.index⟩) :=
    Steps.single rfl (.park id hx hst hflag hspan)
  have hnot : ¬ h.CachedAt x := not_cachedAt_of_cell? hx (by simp [hst])
  have hold : ∀ z, h.CachedAt z → (h.park id s ⟨x, c.block, c.index⟩).CachedAt z := fun z hz =>
    hparked.cachedAt hs hz Act.noConfusion Act.noConfusion
  have hnew : (h.park id s ⟨x, c.block, c.index⟩).CachedAt x := by
    refine ⟨{ c with header := c.header.withState .cached }, ?_, rfl⟩
    have hcell := Arena.cell?_modifyHeader_of_cell hx (·.withState .cached) x
    rw [if_pos rfl] at hcell
    exact hcell
  -- An entry is the new one, or it was there before.
  have hmem : ∀ (u : Worker) t d,
      d ∈ (u.freeLists.modify s (⟨x, c.block, c.index⟩ :: ·)).get t →
        (t = s ∧ d.addr = x) ∨ d ∈ u.freeLists.get t := by
    intro u t d hd
    by_cases hts : t = s
    · rw [hts, SpanTable.get_modify_self] at hd
      rcases List.mem_cons.1 hd with rfl | hd
      · exact Or.inl ⟨hts, rfl⟩
      · exact Or.inr (hts ▸ hd)
    · rw [SpanTable.get_modify_of_ne _ _ hts] at hd
      exact Or.inr hd
  have hfrom : ∀ v ∈ (h.park id s ⟨x, c.block, c.index⟩).workers, ∃ w ∈ h.workers,
      w.id = v.id ∧ ∀ t, ∀ d ∈ v.freeLists.get t,
        (w.id = id ∧ t = s ∧ d.addr = x) ∨ d ∈ w.freeLists.get t := by
    intro v hv
    obtain ⟨w, hw, rfl⟩ := List.mem_map.1 hv
    refine ⟨w, hw, ?_⟩
    split
    · next hid => exact ⟨rfl, fun t d hd => (hmem w t d hd).imp_left fun ht => ⟨hid, ht⟩⟩
    · exact ⟨rfl, fun t d hd => Or.inr hd⟩
  have holder : ∀ w ∈ h.workers, ∀ t, ∀ d ∈ w.freeLists.get t, d.addr ≠ x := fun w hw t d hd e =>
    hnot (e ▸ hf.cached w hw t d hd)
  refine ⟨?_, ?_, ?_, ?_, ?_⟩
  · have hids : (h.park id s ⟨x, c.block, c.index⟩).workers.map Worker.id =
        h.workers.map Worker.id := ids_modifyWorker fun _ => rfl
    exact hids ▸ hf.ids
  · intro v hv
    obtain ⟨w, hw, hid, -⟩ := hfrom v hv
    exact hid ▸ hf.fresh w hw
  · intro v hv t d hd
    obtain ⟨w, hw, -, hlist⟩ := hfrom v hv
    rcases hlist t d hd with ⟨-, -, haddr⟩ | hd
    · exact haddr ▸ hnew
    · exact hold _ (hf.cached w hw t d hd)
  · intro v hv t
    obtain ⟨w, hw, rfl⟩ := List.mem_map.1 hv
    split
    · by_cases hts : t = s
      · rw [hts, SpanTable.get_modify_self, List.map_cons, List.nodup_cons]
        refine ⟨fun hx' => ?_, hf.nodup w hw s⟩
        obtain ⟨d, hd, haddr⟩ := List.mem_map.1 hx'
        exact holder w hw s d hd haddr
      · rw [SpanTable.get_modify_of_ne _ _ hts]
        exact hf.nodup w hw t
    · exact hf.nodup w hw t
  · intro v hv u hu t r d hd k hk haddr
    obtain ⟨w, hw, hid, hlist⟩ := hfrom v hv
    obtain ⟨w', hw', hid', hlist'⟩ := hfrom u hu
    rw [← hid, ← hid']
    rcases hlist t d hd with ⟨hwid, hts, hdx⟩ | hd
    · rcases hlist' r k hk with ⟨hwid', hrs, -⟩ | hk
      · exact ⟨hwid.trans hwid'.symm, hts.trans hrs.symm⟩
      · exact absurd (haddr.symm.trans hdx) (holder w' hw' r k hk)
    · rcases hlist' r k hk with ⟨-, -, hkx⟩ | hk
      · exact absurd (haddr.trans hkx) (holder w hw t d hd)
      · exact hf.apart w hw w' hw' t r d hd k hk haddr

theorem Shelved.free
    (hs : h.Sound)
    (hf : h.Shelved)
    (id x size : Nat) (shape : Option Shape) :
    (h.free id x size shape).2.Shelved := by
  unfold Heap.free
  cases hfree : h.freeable x size shape with
  | error o => exact hf.count _ _ _
  | ok p =>
      obtain ⟨s, e⟩ := p
      obtain ⟨c, hcell, hst, hflag, hspan, rfl⟩ := freeable_eq_ok hs.layout hfree
      exact (hf.park hs hcell hst hflag hspan id).count _ _ _

theorem Shelved.freeTracked
    (addrs : List Nat)
    (hs : h.Sound)
    (hf : h.Shelved)
    (id : Nat) :
    (h.freeTracked id addrs).2.Shelved :=
  (freeTracked_preserves (R := fun g => g.Sound ∧ g.Shelved) ⟨hs, hf⟩
    (fun _ x size shape hg => ⟨(free_steps hg.1 id x size shape).sound hg.1, hg.2.free hg.1 id x size
      shape⟩) addrs).2

theorem Shelved.drainScope
    (hs : h.Sound)
    (hf : h.Shelved)
    (k : Nat) :
    (h.drainScope k).2.Shelved := by
  have hended : (h.modifyScope k fun scope => { scope with used := 0, status := .closed }).Shelved :=
    hf.modifyScope _ _
  rcases drainScope_cases h k with ⟨-, heq⟩ | ⟨scope, -, heq | ⟨registry, owner, _, _, heq⟩⟩
  · rw [heq]
    exact hf
  · rw [heq]
    exact hended
  · rw [heq]
    have hclosing : (h.closing k scope).Shelved := hended.modifyRegistry scope.registry _
    have hfreed := hclosing.freeTracked (registry.addresses scope.used)
      ((closing_steps h k scope).sound hs) scope.worker
    refine Shelved.count (Shelved.count ?_ _ _ _) _ _ _
    exact hfreed.modifyWorker owner (fun _ => rfl) fun _ _ => List.Sublist.refl _

/-! ### The end of a worker -/

theorem clients_uncacheAll
    (entries : List FreeEntry)
    (h : Heap) :
    (h.uncacheAll entries).2.clients = h.clients := by
  induction entries generalizing h with
  | nil => rfl
  | cons e rest ih =>
      unfold uncacheAll
      refine (ih _).trans ?_
      unfold uncache
      split
      · rw [clients_offer, clients_withArena]
      · rfl

theorem clients_offerAll
    (blocks : List Nat)
    (h : Heap) :
    (blocks.foldl offerIfFree h).clients = h.clients := by
  induction blocks generalizing h with
  | nil => rfl
  | cons i rest ih => exact (ih _).trans (clients_offerIfFree h i)

/-- A worker whose free lists become empty gives up its cells only. -/
theorem Shelved.emptied
    (hf : h.Shelved)
    (hclients : g.clients = h.clients)
    (id : Nat)
    (hid : ∀ w, (f w).id = w.id)
    (hempty : ∀ w s, (f w).freeLists.get s = [])
    (hcached : ∀ w ∈ h.workers, w.id ≠ id → ∀ s, ∀ e ∈ w.freeLists.get s, g.CachedAt e.addr) :
    (g.modifyWorker id f).Shelved := by
  have hfrom : ∀ v ∈ (g.modifyWorker id f).workers, ∃ w ∈ h.workers, w.id = v.id ∧
      ∀ s, ∀ e ∈ v.freeLists.get s, w.id ≠ id ∧ v.freeLists.get s = w.freeLists.get s := by
    intro v hv
    obtain ⟨w, hw, rfl⟩ := mem_workers_modifyWorker hv
    refine ⟨w, workers_of_clients hclients ▸ hw, ?_⟩
    split
    · refine ⟨(hid w).symm, fun s e he => ?_⟩
      rw [hempty] at he
      cases he
    · next hne => exact ⟨rfl, fun s e he => ⟨hne, rfl⟩⟩
  have hnext : g.nextWorker = h.nextWorker := nextWorker_of_clients hclients
  refine hf.shrink ?_ hnext ?_ ?_
  · rw [ids_modifyWorker hid, workers_of_clients hclients]
  · intro v hv
    obtain ⟨w, hw, hsame, hlist⟩ := hfrom v hv
    refine ⟨w, hw, hsame, fun s => ?_⟩
    cases hget : v.freeLists.get s with
    | nil => exact List.nil_sublist _
    | cons e rest => rw [← hget, (hlist s e (hget ▸ List.mem_cons_self ..)).2]
  · intro v hv s e he
    obtain ⟨w, hw, -, hlist⟩ := hfrom v hv
    obtain ⟨hne, hsame⟩ := hlist s e he
    exact hcached w hw hne s e (hsame ▸ he)

theorem Shelved.flushWorker
    (hs : h.Sound)
    (hf : h.Shelved)
    (id : Nat) :
    (h.flushWorker id).2.Shelved := by
  unfold Heap.flushWorker
  split
  · exact hf
  · next w hfound =>
      obtain ⟨hw, rfl⟩ := worker?_eq_some hfound
      dsimp only
      have huncached := uncacheAll_steps w.freeEntries hs
        fun e he => freeEntries_fit hs.stocked hw he
      have hoffered := offerAll_steps
        (w.cursors.toList.filterMap fun c => c.map Cursor.block) (huncached.sound hs)
      have hclients := (clients_offerAll (w.cursors.toList.filterMap fun c => c.map Cursor.block)
        _).trans (clients_uncacheAll w.freeEntries h)
      refine hf.emptied hclients w.id (fun _ => rfl) (fun _ s => SpanTable.get_fill _ s) ?_
      intro u hu hne s e he
      have hcached := huncached.cachedAt hs (hf.cached u hu s e he) (by simp) ?_
      · exact hoffered.cachedAt (huncached.sound hs) hcached (by simp) (by simp)
      · -- The cells that become free are those of the free lists of the worker itself.
        rintro (hstill | ⟨d, hd, haddr⟩)
        · cases hstill
        · obtain ⟨entries, hl, hd⟩ := List.mem_flatMap.1 hd
          obtain ⟨t, rfl⟩ := SpanTable.exists_get_of_mem_toList hl
          exact hne (hf.apart u hu w hw s t e he d (List.mem_reverse.1 hd)
            (Act.uncache.inj haddr)).1

end Heap

end EagerHeap
