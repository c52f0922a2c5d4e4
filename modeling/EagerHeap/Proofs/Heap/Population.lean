import EagerHeap.Proofs.Heap.Caches
/-!
# The population of a heap

How many objects and how many cached cells there are. Handing out an object adds one, an eager free
moves one from the objects to the cached cells, the end of a worker takes its cached cells away, and
the sweeper takes away the objects that it frees. Nothing else changes these numbers.

Main results: `HandsOut.objectCount`, `objectCount_free`, `cachedCount_flushWorker` and
`Visits.objectCount`.
-/

namespace EagerHeap

theorem length_eq_of_mem_iff
    {α : Type} {l l' : List α}
    (hl : l.Nodup)
    (hl' : l'.Nodup)
    (h : ∀ y, y ∈ l' ↔ y ∈ l) :
    l'.length = l.length :=
  ((List.perm_ext_iff_of_nodup hl' hl).2 h).length_eq

theorem length_eq_succ_of_mem_iff
    {α : Type} {l l' : List α} {x : α}
    (hl : l.Nodup)
    (hl' : l'.Nodup)
    (hx : x ∉ l)
    (hx' : x ∈ l')
    (h : ∀ y, y ≠ x → (y ∈ l' ↔ y ∈ l)) :
    l'.length = l.length + 1 := by
  refine length_eq_of_mem_iff (l := x :: l) (List.nodup_cons.2 ⟨hx, hl⟩) hl' fun y => ?_
  rw [List.mem_cons]
  by_cases hy : y = x
  · simp [hy, hx']
  · simp [hy, h y hy]

/-! ### Cells in a state -/

namespace Arena

variable {a a' : Arena} {x y : Nat} {st : CellState} {c : Cell}

/-- The address is that of a cell in the state. -/
def HasState (a : Arena) (st : CellState) (x : Nat) : Prop :=
  ∃ c, a.cell? x = some c ∧ c.header.state = st

/-- The number of cells in a state, small ones and runs. -/
def inState (a : Arena) (st : CellState) : Nat :=
  a.cells.countP (a.satisfies fun _ hd => hd.state = st)

theorem satisfies_state_iff :
    a.satisfies (fun _ hd => hd.state = st) x = true ↔ a.HasState st x := by
  unfold satisfies HasState
  cases a.cell? x with
  | none => simp
  | some c => simp

theorem HasState.unique
    {st' : CellState}
    (h : a.HasState st x)
    (h' : a.HasState st' x) :
    st = st' := by
  obtain ⟨c, hc, rfl⟩ := h
  obtain ⟨d, hd, rfl⟩ := h'
  obtain rfl := Option.some.inj (hc.symm.trans hd)
  rfl

/-- The addresses of the cells in a state. -/
theorem mem_filter_cells
    (hl : a.Layout) :
    x ∈ a.cells.filter (a.satisfies fun _ hd => hd.state = st) ↔ a.HasState st x := by
  rw [List.mem_filter, satisfies_state_iff, mem_cells hl]
  exact and_iff_right_of_imp fun ⟨c, hc, _⟩ => ⟨c, hc⟩

namespace Layout

theorem inState_eq
    (hl : a.Layout)
    (hl' : a'.Layout)
    (h : ∀ y, a'.HasState st y ↔ a.HasState st y) :
    a'.inState st = a.inState st := by
  unfold inState
  rw [List.countP_eq_length_filter, List.countP_eq_length_filter]
  refine length_eq_of_mem_iff ((nodup_cells hl).filter _) ((nodup_cells hl').filter _) fun y => ?_
  rw [mem_filter_cells hl, mem_filter_cells hl', h y]

/-- One more cell is in a state if one cell comes into the state. -/
theorem inState_eq_succ
    (hl : a.Layout)
    (hl' : a'.Layout)
    (hx : ¬ a.HasState st x)
    (hx' : a'.HasState st x)
    (h : ∀ y, y ≠ x → (a'.HasState st y ↔ a.HasState st y)) :
    a'.inState st = a.inState st + 1 := by
  unfold inState
  rw [List.countP_eq_length_filter, List.countP_eq_length_filter]
  refine length_eq_succ_of_mem_iff (x := x) ((nodup_cells hl).filter _)
    ((nodup_cells hl').filter _) ?_ ?_ fun y hy => ?_
  · rwa [mem_filter_cells hl]
  · rwa [mem_filter_cells hl']
  · rw [mem_filter_cells hl, mem_filter_cells hl', h y hy]

end Layout

end Arena

namespace Heap

/-- The number of objects, small and large. -/
def objectCount (h : Heap) : Nat := h.arena.inState .allocated

/-- The number of cached cells. -/
def cachedCount (h : Heap) : Nat := h.arena.inState .cached

variable {h h' g : Heap} {x y id n : Nat} {c : Cell} {s : Span} {e : FreeEntry} {P : Act → Prop}
  {xs : List Nat} {cs : List Cell} {shape : Option Shape}

/-! ### Elementary changes -/

/-- An object is there before changes that hand out none at its address. -/
theorem Steps.allocated_of
    (hsteps : Steps P h h')
    (hs : h.Sound)
    (hbirth : ¬ P (.birth x))
    (hx : h'.arena.HasState .allocated x) :
    h.arena.HasState .allocated x := by
  by_contra hnot
  refine (hsteps.induct (R := fun g => ¬ g.arena.HasState .allocated x) hs hnot ?_).2 hx
  rintro g l g' hg hbefore hl ht ⟨c, hc, hst⟩
  have hchange := ht.cellChange hg x
  rw [hc] at hchange
  refine hbirth ((hchange.birth hst fun d hd hal => hbefore ⟨d, hd, hal⟩).1 ▸ hl)

theorem Steps.allocated_iff
    (hsteps : Steps P h h')
    (hs : h.Sound)
    (hbirth : ¬ P (.birth x))
    (hpark : ¬ P (.park x))
    (hreclaim : ¬ P (.reclaim x)) :
    h'.arena.HasState .allocated x ↔ h.arena.HasState .allocated x := by
  constructor
  · exact hsteps.allocated_of hs hbirth
  · rintro ⟨c, hc, hst⟩
    obtain ⟨hd, hcell, hal⟩ := hsteps.stays hs hc hst hpark hreclaim
    exact ⟨_, hcell, hal⟩

theorem Steps.cached_iff
    (hsteps : Steps P h h')
    (hs : h.Sound)
    (hbirth : ¬ P (.birth x))
    (hpark : ¬ P (.park x))
    (huncache : ¬ P (.uncache x)) :
    h'.arena.HasState .cached x ↔ h.arena.HasState .cached x :=
  ⟨hsteps.cachedAt_of hs hpark, fun hx => hsteps.cachedAt hs hx hbirth huncache⟩

theorem Steps.objectCount_eq
    (hsteps : Steps P h h')
    (hs : h.Sound)
    (hbirth : ∀ x, ¬ P (.birth x))
    (hpark : ∀ x, ¬ P (.park x))
    (hreclaim : ∀ x, ¬ P (.reclaim x)) :
    h'.objectCount = h.objectCount :=
  hs.layout.inState_eq (hsteps.sound hs).layout fun _ =>
    hsteps.allocated_iff hs (hbirth _) (hpark _) (hreclaim _)

theorem Steps.cachedCount_eq
    (hsteps : Steps P h h')
    (hs : h.Sound)
    (hbirth : ∀ x, ¬ P (.birth x))
    (hpark : ∀ x, ¬ P (.park x))
    (huncache : ∀ x, ¬ P (.uncache x)) :
    h'.cachedCount = h.cachedCount :=
  hs.layout.inState_eq (hsteps.sound hs).layout fun _ =>
    hsteps.cached_iff hs (hbirth _) (hpark _) (huncache _)

/-- No cell is ever found in the state in which it is being claimed. -/
theorem Steps.not_claimed
    (hsteps : Steps P h h')
    (hs : h.Sound)
    (hnone : ∀ x, ¬ h.arena.HasState .init x) :
    ∀ x, ¬ h'.arena.HasState .init x := by
  refine (hsteps.induct (R := fun g => ∀ x, ¬ g.arena.HasState .init x) hs hnone ?_).2
  rintro g l g' hg hbefore - ht x ⟨c, hc, hst⟩
  have hchange := ht.cellChange hg x
  rw [hc] at hchange
  cases ho : g.arena.cell? x with
  | none =>
      rw [ho] at hchange
      cases hchange with
      | carved _ hfresh | born _ hfresh =>
          rw [hfresh] at hst
          cases hst
  | some d =>
      rw [ho] at hchange
      refine hbefore x ⟨d, ho, ?_⟩
      cases hchange with
      | kept hhd =>
          cases hhd with
          | birth | park | uncache | reclaim => cases hst
          | _ => exact hst

/-! ### Handing out objects -/

theorem HandsOut.objectCount
    (ho : HandsOut h x h')
    (hs : h.Sound) :
    h'.objectCount = h.objectCount + 1 := by
  obtain ⟨hnone, c, hc, -⟩ := ho.fresh hs
  refine hs.layout.inState_eq_succ (ho.steps.sound hs).layout (x := x) ?_ ⟨c, hc⟩ fun y hy => ?_
  · rintro ⟨d, hd, hst⟩
    rw [Arena.isAllocated_iff.2 ⟨d, hd, hst⟩] at hnone
    cases hnone
  · exact ho.steps.allocated_iff hs (by simp [hy]) (by simp) (by simp)

theorem HandsOut.cached_iff
    (ho : HandsOut h x h')
    (hs : h.Sound)
    (hy : y ≠ x) :
    h'.arena.HasState .cached y ↔ h.arena.HasState .cached y :=
  ho.steps.cached_iff hs (by simp [hy]) (by simp) (by simp)

/-- A cached cell that is handed out is not cached any more. -/
theorem HandsOut.cachedCount_of_cached
    (ho : HandsOut h x h')
    (hs : h.Sound)
    (hx : h.CachedAt x) :
    h.cachedCount = h'.cachedCount + 1 :=
  (ho.steps.sound hs).layout.inState_eq_succ hs.layout (x := x) (ho.not_cachedAt hs) hx
    fun _ hy => (ho.cached_iff hs hy).symm

theorem HandsOut.cachedCount_of_not_cached
    (ho : HandsOut h x h')
    (hs : h.Sound)
    (hx : ¬ h.CachedAt x) :
    h'.cachedCount = h.cachedCount := by
  refine hs.layout.inState_eq (ho.steps.sound hs).layout fun y => ?_
  by_cases hy : y = x
  · rw [hy]
    exact iff_of_false (ho.not_cachedAt hs) hx
  · exact ho.cached_iff hs hy

/-! ### Eager frees -/

theorem Tick.parked
    (ht : Tick h (.park x) g) :
    h.arena.HasState .allocated x ∧ g.arena.HasState .cached x := by
  generalize hl : Act.park x = l at ht
  cases ht with
  | @park y c s id hy hst hf hspan =>
      cases hl
      have hcell := Arena.cell?_modifyHeader_of_cell hy (·.withState .cached) x
      rw [if_pos rfl] at hcell
      exact ⟨⟨c, hy, hst⟩, _, hcell, rfl⟩
  | _ => cases hl

/-- An eager free that is accepted turns an object into a cached cell. -/
theorem count_free
    (hs : h.Sound)
    (hf : (h.free id x n shape).1 = none) :
    h.objectCount = (h.free id x n shape).2.objectCount + 1 ∧
      (h.free id x n shape).2.cachedCount = h.cachedCount + 1 := by
  rcases free_cases hs id x n shape with ⟨-, g, ht, hstill⟩ | ⟨hne, -⟩
  · have hg := ht.sound hs
    have hsteps := free_steps hs id x n shape
    obtain ⟨hbefore, hafter⟩ := ht.parked
    have hcached := (hstill.cached_iff hg (by simp) (by simp) (by simp)).2 hafter
    constructor
    · refine (hsteps.sound hs).layout.inState_eq_succ hs.layout (x := x) ?_ hbefore fun y hy => ?_
      · exact fun hal => CellState.noConfusion (hal.unique hcached)
      · exact (hsteps.allocated_iff hs (by simp) (by simp [hy]) (by simp)).symm
    · refine hs.layout.inState_eq_succ (hsteps.sound hs).layout (x := x) ?_ hcached fun y hy => ?_
      · exact fun hold => CellState.noConfusion (hbefore.unique hold)
      · exact hsteps.cached_iff hs (by simp) (by simp [hy]) (by simp)
  · exact absurd hf hne

/-! ### The end of a worker -/

/-- A cell that is given up is counted if it was cached. -/
theorem cachedCount_uncache
    (hs : h.Sound)
    (he : e.Fits h.arena s) :
    h.cachedCount = (h.uncache e).2.cachedCount + (h.uncache e).1.toNat := by
  have hsteps := uncache_steps hs he
  rcases hu : (h.uncache e).1 with _ | _
  · have hsame : (h.uncache e).2 = h := by
      rw [uncache] at hu ⊢
      split at hu
      · cases hu
      · next hnot => rw [if_neg hnot]
    rw [hsame]
    rfl
  · have hnow := not_cachedAt_uncache hs he
    refine (hsteps.sound hs).layout.inState_eq_succ hs.layout (x := e.addr) hnow ?_ fun y hy => ?_
    · obtain ⟨hd, hhd, hcell⟩ := he.cell? hs.layout
      refine ⟨_, hcell, ?_⟩
      rw [uncache] at hu
      split at hu
      · next hcached =>
          rw [hhd] at hcached
          exact of_decide_eq_true hcached
      · cases hu
    · exact (hsteps.cached_iff hs (by simp) (by simp) (by simp [hy])).symm

theorem cachedCount_uncacheAll
    (entries : List FreeEntry)
    (hs : h.Sound)
    (hfits : ∀ e ∈ entries, ∃ s, e.Fits h.arena s) :
    h.cachedCount = (h.uncacheAll entries).2.cachedCount + (h.uncacheAll entries).1 := by
  induction entries generalizing h with
  | nil => rfl
  | cons e rest ih =>
      obtain ⟨s, he⟩ := hfits e (List.mem_cons_self ..)
      have hfirst := uncache_steps hs he
      have hrest := ih (hfirst.sound hs) fun d hd => by
        obtain ⟨t, h₁, h₂, h₃⟩ := hfits d (List.mem_cons_of_mem _ hd)
        exact ⟨t, hfirst.hasSpan hs h₁, h₂, h₃⟩
      have hcell := cachedCount_uncache hs he
      rw [uncacheAll]
      rcases hu : h.uncache e with ⟨_ | _, g⟩
      · rw [hu] at hcell hrest
        exact hcell.trans hrest
      · rw [hu] at hcell hrest
        rw [hcell, hrest]
        rfl

theorem cachedCount_flushWorker
    (hs : h.Sound)
    (id : Nat) :
    h.cachedCount = (h.flushWorker id).2.cachedCount + (h.flushWorker id).1 := by
  rw [flushWorker]
  split
  · rfl
  · next w hw =>
      have hfits : ∀ e ∈ w.freeEntries, ∃ s, e.Fits h.arena s := fun e he =>
        freeEntries_fit hs.stocked (worker?_mem hw) he
      have huncached := uncacheAll_steps w.freeEntries hs hfits
      have hoffered := offerAll_steps (w.cursors.toList.filterMap fun c => c.map Cursor.block)
        (huncached.sound hs)
      rw [cachedCount_uncacheAll w.freeEntries hs hfits,
        ← hoffered.cachedCount_eq (huncached.sound hs) (by simp) (by simp) (by simp)]
      rfl

/-! ### Sweeping -/

theorem Tick.reclaimed
    (hs : h.Sound)
    (ht : Tick h (.reclaim x) g) :
    ¬ g.arena.HasState .allocated x := by
  generalize hl : Act.reclaim x = l at ht
  cases ht with
  | @reclaimCell y c hy hu hf hsmall =>
      cases hl
      rintro ⟨d, hd, hst⟩
      have hcell := Arena.cell?_modifyHeader_of_cell hy (·.withState .free) x
      rw [if_pos rfl] at hcell
      obtain rfl := Option.some.inj (hcell.symm.trans hd)
      cases hst
  | @reclaimRun i n hd sh hb hn hu hf =>
      cases hl
      rintro ⟨d, hd', -⟩
      obtain ⟨hself, hother⟩ := Arena.close_blocks hb
      have hgone := hs.layout.cell?_closeRun (Arena.close_layout hs.layout hb hn) hb rfl hself
        hother (Arena.blockBase i)
      rw [if_pos rfl] at hgone
      cases hgone.symm.trans hd'
  | _ => cases hl

/-- One object less is there after an unreached object was freed. -/
theorem Tick.objectCount_reclaim
    (hs : h.Sound)
    (ht : Tick h (.reclaim x) g)
    (hx : h.arena.HasState .allocated x) :
    h.objectCount = g.objectCount + 1 := by
  have hsteps : Steps (· = .reclaim x) h g := Steps.single rfl ht
  refine (ht.sound hs).layout.inState_eq_succ hs.layout (x := x) (ht.reclaimed hs) hx fun y hy => ?_
  exact (hsteps.allocated_iff hs (by simp) (by simp) (by simp [hy])).symm

theorem Visit.objectCount
    (hv : Visit h x cs g)
    (hs : h.Sound) :
    h.objectCount = g.objectCount + cs.length := by
  cases hv with
  | spare => rfl
  | keep ho hw hf =>
      have hsteps : Steps (· = .finalize x) h (h.resurrect x) := Steps.single rfl (.finalize x)
      exact (hsteps.objectCount_eq hs (by simp) (by simp) (by simp)).symm
  | free ho hw hf ht => exact ht.objectCount_reclaim hs ⟨_, ho⟩
  | @cleanup c g ho hw hf ht =>
      have hqueued : Steps (· = .cleanup x) h _ := Steps.single rfl (.cleanup hf)
      have hcount := hqueued.objectCount_eq hs (by simp) (by simp) (by simp)
      have hal := (hqueued.allocated_iff hs (by simp) (by simp) (by simp)).2 ⟨c, ho⟩
      rw [← hcount]
      exact ht.objectCount_reclaim (hqueued.sound hs) hal

/-- Sweeping takes away the objects that it frees, and no others. -/
theorem Visits.objectCount
    (hv : Visits h xs cs g)
    (hs : h.Sound) :
    h.objectCount = g.objectCount + cs.length := by
  induction hv with
  | nil => rfl
  | visit hv _ ih =>
      rw [hv.objectCount hs, ih (hv.steps.sound hs), List.length_append]
      omega
  | offer b hstill _ ih =>
      rw [← ih (hstill.steps.sound hs)]
      exact (hstill.steps.objectCount_eq hs (by simp) (by simp) (by simp)).symm

/-! ### Occupancy reports -/

/-- The small and the large objects of an occupancy report are all objects. -/
theorem objectCount_eq_census
    (hs : h.Sound)
    (hnone : ∀ x, ¬ h.arena.HasState .init x) :
    h.objectCount = h.census.cells.allocated + h.census.largeObjects := by
  have hclaimed : h.arena.cells.countP (h.arena.holdsAt (·.state = .init)) = 0 := by
    rw [List.countP_eq_zero]
    rintro x - hx
    obtain ⟨c, hc, -, hst⟩ := Arena.holdsAt_iff.1 hx
    exact hnone x ⟨c, hc, of_decide_eq_true hst⟩
  rw [hs.layout.countP_cells] at hclaimed
  rw [h.census_objects, hclaimed, Nat.add_zero, objectCount, Arena.inState,
    hs.layout.countP_satisfies]

/-- The cached cells of an occupancy report are all cached cells: those of runs are never cached. -/
theorem cachedCount_eq_census
    (hs : h.Sound) :
    h.cachedCount = h.census.cells.cached := by
  rw [h.census_cells.1, ← hs.layout.countP_cells, cachedCount, Arena.inState]
  refine List.countP_congr fun x _ => ?_
  rw [Arena.satisfies_state_iff, Arena.holdsAt_iff]
  constructor
  · rintro ⟨c, hc, hst⟩
    refine ⟨c, hc, ?_, decide_eq_true hst⟩
    rcases hs.layout.cell?_cases hc with
      ⟨s, -, -, -, -, -, hsmall⟩ | ⟨n, sh, -, -, -, -, -, -, -, hal⟩
    · exact hsmall
    · rw [hst] at hal
      cases hal
  · rintro ⟨c, hc, -, hst⟩
    exact ⟨c, hc, of_decide_eq_true hst⟩

end Heap

end EagerHeap
