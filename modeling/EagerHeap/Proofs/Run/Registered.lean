import EagerHeap.Proofs.Run.Registrations
/-!
# Whether workers know the registries of their scopes

A worker should know exactly the registries that back its scopes. That is so until a worker is refused a
registry that backs a scope of another one: the registry then names the wrong owner, and when its scope
ends, the wrong worker forgets it.

Main results: `Enrolled.listed_apply_iff`, `Enrolled.owned_apply_iff` and `registration_exact_iff`.
-/

namespace EagerHeap

namespace Machine

variable {P Q : Machine → Move → Prop} {m : Machine} {e : Ends} {y : Move} {ys : List Move}
  {id r : Nat} {memory : Nat} {c : Config} {h : Heap}

open Heap

/-- A worker is refused a registry that backs a scope of another live worker. -/
def TakesOver (m : Machine) (y : Move) : Prop :=
  ∃ x, y.enters? = some x ∧ ∃ w ∈ m.heap.workers, w.id ≠ x.1 ∧ m.heap.Backs x.2 w.id

/-- A scope of a live worker ends while its registry names another owner. -/
def EndsElsewhere (m : Machine) (y : Move) : Prop :=
  ∃ r, m.closes? y = some r ∧
    ∃ w ∈ m.heap.workers, m.heap.Backs r w.id ∧ m.heap.ownerOf r ≠ some w.id

instance decidableTakesOver (m : Machine) (y : Move) : Decidable (m.TakesOver y) :=
  inferInstanceAs (Decidable (∃ x, y.enters? = some x ∧
    ∃ w ∈ m.heap.workers, w.id ≠ x.1 ∧ m.heap.Backs x.2 w.id))

instance decidableEndsElsewhere (m : Machine) (y : Move) : Decidable (m.EndsElsewhere y) :=
  inferInstanceAs (Decidable (∃ r, m.closes? y = some r ∧
    ∃ w ∈ m.heap.workers, m.heap.Backs r w.id ∧ m.heap.ownerOf r ≠ some w.id))

/-! ### What workers should know -/

/-- Every live worker knows exactly the registries that back an open or leaked scope of it, and each of
them once. -/
def Listed (m : Machine) (e : Ends) : Prop :=
  ∀ w ∈ m.heap.workers, w.registries.Nodup ∧ ∀ r, r ∈ w.registries ↔ m.Backs e r w.id

/-- A registry that backs a scope of a live worker names it as its owner. -/
def Owned (m : Machine) (e : Ends) : Prop :=
  ∀ w ∈ m.heap.workers, ∀ r, m.Backs e r w.id → m.heap.ownerOf r = some w.id

theorem listed_iff :
    m.Listed e ↔ ∀ p ∈ m.heap.holdings.known, p.2.Nodup ∧ ∀ r, r ∈ p.2 ↔ m.Backs e r p.1 := by
  rw [Listed, holdings, List.forall_mem_map]

theorem owned_iff :
    m.Owned e ↔
      ∀ p ∈ m.heap.holdings.known, ∀ r, m.Backs e r p.1 → m.heap.ownerOf r = some p.1 := by
  rw [Owned, holdings, List.forall_mem_map]

theorem not_endsElsewhere
    (hclose : m.closes? y = none) :
    ¬ m.EndsElsewhere y := by
  rintro ⟨r, hr, -⟩
  rw [hclose] at hr
  cases hr

theorem not_takesOver
    (henter : y.enters? = none) :
    ¬ m.TakesOver y := by
  rintro ⟨x, hx, -⟩
  rw [henter] at hx
  cases hx

/-- A worker that comes backs no scope. -/
theorem Enrolled.not_backs_next
    (hm : m.Enrolled e)
    (r : Nat) :
    ¬ m.Backs e r m.heap.nextWorker := by
  intro hb
  obtain ⟨k, p, hp, -, hworker, -⟩ := hb.exists_post
  exact Nat.lt_irrefl _ (hworker ▸ hm.known k p hp)

/-- What a worker knows stays right when a scope ends, if the scope is none of the worker or the
registry names it as its owner. -/
theorem listed_forgets
    {u : List Nat}
    (hnodup : u.Nodup)
    (hmem : ∀ q, q ∈ u ↔ m.Backs e q id)
    (howner : m.Backs e r id → m.heap.ownerOf r = some id) :
    (m.heap.forgets r (id, u)).2.Nodup ∧
      ∀ q, q ∈ (m.heap.forgets r (id, u)).2 ↔ m.Backs e q id ∧ q ≠ r := by
  rw [forgets]
  split
  · refine ⟨hnodup.erase r, fun q => ?_⟩
    rw [hnodup.mem_erase_iff, hmem, and_comm]
  · next hother =>
      refine ⟨hnodup, fun q => ?_⟩
      rw [hmem]
      refine ⟨fun hb => ⟨hb, ?_⟩, And.left⟩
      rintro rfl
      exact hother (howner hb)

/-- A move keeps the lists of the workers right, unless a scope ends while its registry names another
owner. -/
theorem Enrolled.listed_apply_iff
    (hm : m.Enrolled e)
    (hy : m.Heeds e y)
    (hl : m.Listed e) :
    (m.apply y).Listed (e.after y) ↔ ¬ m.EndsElsewhere y := by
  rw [listed_iff] at hl ⊢
  cases hm.registers hy with
  | entered id r _ hclose _ hnone _ hbacks hknown =>
      refine iff_of_true ?_ (not_endsElsewhere hclose)
      rw [hknown, List.forall_mem_map]
      intro p hp
      obtain ⟨hnodup, hmem⟩ := hl p hp
      simp only [hbacks]
      split
      · next hid =>
          have hnew : r ∉ p.2 := fun hr => hm.not_backs hnone p.1 ((hmem r).1 hr)
          refine ⟨List.nodup_cons.2 ⟨hnew, hnodup⟩, fun q => ?_⟩
          rw [List.mem_cons, hmem, or_comm, and_iff_left hid]
      · next hid =>
          refine ⟨hnodup, fun q => ?_⟩
          rw [hmem, or_iff_left fun hnew => hid hnew.2]
  | refused id r _ hclose _ _ _ hbacks hknown =>
      refine iff_of_true ?_ (not_endsElsewhere hclose)
      rw [hknown]
      simp only [hbacks]
      exact hl
  | ended r _ hclose hkept _ hbacks hknown =>
      rw [hknown, List.forall_mem_map]
      simp only [hbacks, fst_forgets]
      constructor
      · rintro hafter ⟨r', hr', w, hw, hb, hother⟩
        obtain rfl : r = r' := Option.some.inj (hclose.symm.trans hr')
        have hp : (w.id, w.registries) ∈ m.heap.holdings.known := List.mem_map_of_mem hw
        -- The owner that forgets is another worker, and this one still knows the registry.
        have hstill : r ∈ (m.heap.forgets r (w.id, w.registries)).2 := by
          rw [forgets, if_neg hother]
          exact ((hl _ hp).2 r).2 ⟨hkept, hb⟩
        exact (((hafter _ hp).2 r).1 hstill).2 rfl
      · intro hends p hp
        obtain ⟨hnodup, hmem⟩ := hl p hp
        refine listed_forgets hnodup hmem fun hb => ?_
        obtain ⟨w, hw, rfl⟩ := List.mem_map.1 hp
        by_contra hother
        exact hends ⟨r, hclose, w, hw, hb.2, hother⟩
  | quiet _ hclose _ hbacks hknown =>
      refine iff_of_true (fun p hp => ?_) (not_endsElsewhere hclose)
      simp only [hbacks]
      rcases hknown p hp with hp | rfl
      · exact hl p hp
      · exact ⟨List.nodup_nil, fun q => iff_of_false List.not_mem_nil (hm.not_backs_next q)⟩

/-- A move keeps the owners right, unless a worker is refused a registry that backs a scope of another
one. -/
theorem Enrolled.owned_apply_iff
    (hm : m.Enrolled e)
    (hy : m.Heeds e y)
    (ho : m.Owned e) :
    (m.apply y).Owned (e.after y) ↔ ¬ m.TakesOver y := by
  rw [owned_iff] at ho ⊢
  cases hm.registers hy with
  | entered id r henter _ hkept hnone howner hbacks hknown =>
      refine iff_of_true ?_ ?_
      · rw [hknown, List.forall_mem_map]
        intro p hp q hq
        have hfst : (if p.1 = id then (p.1, r :: p.2) else p).1 = p.1 := by split <;> rfl
        rw [hfst, hbacks] at hq
        rw [hfst, howner]
        split
        · next hqr =>
            rw [hqr] at hq
            rw [(hq.resolve_left (hm.not_backs hnone p.1)).2]
        · next hqr => exact ho p hp q (hq.resolve_right fun hnew => hqr hnew.1)
      · rintro ⟨x, hx, w, -, -, hb⟩
        obtain rfl : (id, r) = x := Option.some.inj (henter.symm.trans hx)
        exact hm.not_backs hnone w.id ⟨hkept, hb⟩
  | refused id r henter _ hkept _ howner hbacks hknown =>
      rw [hknown]
      simp only [hbacks, howner]
      constructor
      · rintro hafter ⟨x, hx, w, hw, hne, hb⟩
        obtain rfl : (id, r) = x := Option.some.inj (henter.symm.trans hx)
        have howned := hafter (w.id, w.registries) (List.mem_map_of_mem hw) r ⟨hkept, hb⟩
        rw [if_pos rfl] at howned
        exact hne (Option.some.inj howned).symm
      · intro htakes p hp q hq
        split
        · next hqr =>
            obtain ⟨w, hw, rfl⟩ := List.mem_map.1 hp
            by_contra hne
            exact htakes ⟨_, henter, w, hw, fun hid => hne (congrArg some hid.symm), hqr ▸ hq.2⟩
        · exact ho p hp q hq
  | ended r henter _ _ howner hbacks hknown =>
      refine iff_of_true ?_ (not_takesOver henter)
      rw [hknown, List.forall_mem_map]
      simp only [hbacks, howner, fst_forgets]
      intro p hp q hq
      rw [if_neg hq.2]
      exact ho p hp q hq.1
  | quiet henter _ howner hbacks hknown =>
      refine iff_of_true (fun p hp q hq => ?_) (not_takesOver henter)
      rw [hbacks] at hq
      rw [howner]
      rcases hknown p hp with hp | rfl
      · exact ho p hp q hq
      · exact absurd hq (hm.not_backs_next q)

/-- If registries name the right owners, every scope ends with them. -/
theorem Enrolled.not_endsElsewhere_of_owned
    (hm : m.Enrolled e)
    (hy : m.Heeds e y)
    (ho : m.Owned e) :
    ¬ m.EndsElsewhere y := by
  cases hm.registers hy with
  | ended r _ hclose hkept _ _ _ =>
      rintro ⟨r', hr', w, hw, hb, hother⟩
      obtain rfl : r = r' := Option.some.inj (hclose.symm.trans hr')
      exact hother (ho w hw r ⟨hkept, hb⟩)
  | entered _ _ _ hclose | refused _ _ _ hclose | quiet _ hclose => exact not_endsElsewhere hclose

/-- A registry is registered with a worker, and once, exactly if it backs an open or leaked scope of the
worker. Its owner is then this worker, and no other worker knows it. -/
structure Registered (m : Machine) (e : Ends) : Prop where
  once : ∀ w ∈ m.heap.workers, w.registries.Nodup
  backed : ∀ w ∈ m.heap.workers, ∀ r, r ∈ w.registries ↔ m.Backs e r w.id
  owned : ∀ w ∈ m.heap.workers, ∀ r ∈ w.registries, m.heap.ownerOf r = some w.id
  alone : ∀ w ∈ m.heap.workers, ∀ v ∈ m.heap.workers, ∀ r ∈ w.registries, r ∈ v.registries → w = v

theorem registered_iff
    (hf : m.heap.Shelved) :
    m.Registered e ↔ m.Listed e ∧ m.Owned e := by
  constructor
  · intro hr
    exact ⟨fun w hw => ⟨hr.once w hw, hr.backed w hw⟩,
      fun w hw r hb => hr.owned w hw r ((hr.backed w hw r).2 hb)⟩
  · rintro ⟨hl, ho⟩
    have howned : ∀ w ∈ m.heap.workers, ∀ r ∈ w.registries, m.heap.ownerOf r = some w.id :=
      fun w hw r hr => ho w hw r (((hl w hw).2 r).1 hr)
    refine ⟨fun w hw => (hl w hw).1, fun w hw => (hl w hw).2, howned, fun w hw v hv r hr hr' => ?_⟩
    exact hf.worker_unique hw hv
      (Option.some.inj ((howned w hw r hr).symm.trans (howned v hv r hr')))

/-- A property holds in all states of a run exactly if no move breaks it. -/
theorem Attended.forall_prefix_iff
    {R I : Machine → Ends → Prop}
    (ha : m.Attended e ys)
    (hl : Legal P m ys)
    (hi : I m e)
    (hr : R m e)
    (hinv : ∀ m e y, I m e → m.Allows y → m.Heeds e y → I (m.apply y) (e.after y))
    (hstep : ∀ m e y, I m e → m.Allows y → m.Heeds e y → R m e →
      (R (m.apply y) (e.after y) ↔ ¬ Q m y)) :
    (∀ zs, zs <+: ys → R (m.run zs) (e.afterAll zs)) ↔ Legal (fun m y => ¬ Q m y) m ys := by
  induction ys generalizing m e with
  | nil =>
      refine iff_of_true (fun zs hzs => ?_) trivial
      rw [List.prefix_nil.1 hzs]
      exact hr
  | cons y ys ih =>
      have hnext := ih ha.2 hl.2.2 (hinv m e y hi hl.1 ha.1)
      have hbreak := hstep m e y hi hl.1 ha.1 hr
      constructor
      · intro hall
        have hafter : R (m.apply y) (e.after y) := hall [y] ⟨ys, rfl⟩
        refine ⟨hl.1, hbreak.1 hafter, (hnext hafter).1 fun zs hzs => ?_⟩
        exact hall (y :: zs) (List.cons_prefix_cons.2 ⟨rfl, hzs⟩)
      · rintro ⟨-, hkeep, hrest⟩ zs hzs
        cases zs with
        | nil => exact hr
        | cons z zs =>
            obtain ⟨rfl, hzs'⟩ := List.cons_prefix_cons.1 hzs
            exact (hnext (hbreak.2 hkeep)).2 hrest zs hzs'

/-- When registration is exact. It is exact in all states of a run if and only if no worker is refused a
registry that backs a scope of another live worker; the lists of the workers alone are right if and only
if no scope of a live worker ends while its registry names another owner. A scope that is refused makes
its worker the owner, so it changes nothing exactly if the worker is the owner already. -/
theorem registration_exact_iff
    (hc : Heap.create memory c = .ok h)
    (hl : Legal P (start h) ys)
    (ha : (start h).Attended {} ys) :
    ((∀ zs, zs <+: ys → ((start h).run zs).Registered (Ends.afterAll {} zs)) ↔
        Legal (fun m y => ¬ m.TakesOver y) (start h) ys) ∧
      ((∀ zs, zs <+: ys → ((start h).run zs).Listed (Ends.afterAll {} zs)) ↔
        Legal (fun m y => ¬ m.EndsElsewhere y) (start h) ys) ∧
      ∀ id r, (∃ d, ((start h).run ys).Backs (Ends.afterAll {} ys) r d) →
        (enterScope id r).run ((start h).run ys).heap =
            (.error .slotsInUse, ((start h).run ys).heap.setOwner r (some id)) ∧
          (((start h).run ys).heap.setOwner r (some id) = ((start h).run ys).heap ↔
            ((start h).run ys).heap.ownerOf r = some id) := by
  have hstart : (start h).Proper ∧ (start h).heap.Shelved ∧ (start h).Enrolled {} :=
    ⟨proper_start hc, shelved_start hc, enrolled_start hc⟩
  have hinv : ∀ (m : Machine) (e : Ends) y, m.Proper ∧ m.heap.Shelved ∧ m.Enrolled e → m.Allows y →
      m.Heeds e y → (m.apply y).Proper ∧ (m.apply y).heap.Shelved ∧
        (m.apply y).Enrolled (e.after y) :=
    fun m e y ⟨hm, hf, he⟩ hal hy => ⟨hm.apply hal, hm.shelved hf hal, he.apply hf hy⟩
  have hempty : (start h).heap.workers = [] := by
    obtain ⟨-, rfl⟩ := create_eq_ok hc
    rfl
  have hlisted : (start h).Listed {} := fun w hw => by
    rw [hempty] at hw
    cases hw
  have howned : (start h).Owned {} := fun w hw => by
    rw [hempty] at hw
    cases hw
  refine ⟨?_, ?_, fun id r hb => ?_⟩
  · refine ha.forall_prefix_iff hl hstart ((registered_iff hstart.2.1).2 ⟨hlisted, howned⟩) hinv ?_
    rintro m e y ⟨hm, hf, he⟩ hal hy hr
    obtain ⟨hlist, hown⟩ := (registered_iff hf).1 hr
    have hafter := (he.listed_apply_iff hy hlist).2 (he.not_endsElsewhere_of_owned hy hown)
    rw [registered_iff (hm.shelved hf hal), ← he.owned_apply_iff hy hown, and_iff_right hafter]
  · exact ha.forall_prefix_iff hl hstart hlisted hinv
      fun m e y ⟨_, _, he⟩ _ hy hlist => he.listed_apply_iff hy hlist
  · obtain ⟨-, -, he⟩ := ha.preserves hl hstart hinv
    have hsome := (he.owner r).2 hb
    refine ⟨?_, ?_⟩
    · rw [enterScope_run, if_pos hsome]
    · obtain ⟨o, ho⟩ := Option.isSome_iff_exists.1 hsome
      exact setOwner_eq_self_iff (lt_of_ownerOf ho)

/-- A worker is refused its own registries twice, and registration stays exact. When it is refused that of
another worker whose scope then ends, the other one still knows the slots. -/
theorem registration_exact_iff_shared :
    let own : List Move :=
      [.addWorker, .addWorker, .makeRegistry 2, .makeRegistry 1, .enterScope 0 0, .enterScope 0 0,
        .enterScope 1 1, .leakScope 1, .enterScope 1 1, .drainScope 0, .dropRegistry 1,
        .enterScope 1 0]
    let stale : List Move :=
      [.addWorker, .addWorker, .makeRegistry 1, .enterScope 0 0, .enterScope 1 0, .drainScope 0]
    (∀ zs, zs <+: own →
        ((start (.empty fourBlocks)).run zs).Registered (Ends.afterAll {} zs)) ∧
      (enterScope 0 0).run ((start (.empty fourBlocks)).run own).heap =
        (.error .slotsInUse,
          ((start (.empty fourBlocks)).run own).heap.setOwner 0 (some 0)) ∧
      ¬ ∀ zs, zs <+: stale →
        ((start (.empty fourBlocks)).run zs).Listed (Ends.afterAll {} zs) := by
  intro own stale
  have hown : Legal (fun m y => ¬ m.TakesOver y) (start (.empty fourBlocks)) own := by
    decide +kernel
  have hattended : (start (.empty fourBlocks)).Attended {} own := by
    decide +kernel
  have hbacks : ((start (.empty fourBlocks)).run own).Backs (Ends.afterAll {} own) 0 1 := by
    decide +kernel
  have hstale : Legal (fun _ _ => True) (start (.empty fourBlocks)) stale := by
    decide +kernel
  have hattended' : (start (.empty fourBlocks)).Attended {} stale := by
    decide +kernel
  have hends : ¬ Legal (fun m y => ¬ m.EndsElsewhere y) (start (.empty fourBlocks)) stale := by
    decide +kernel
  obtain ⟨hregistered, -, hrefused⟩ := registration_exact_iff create_fourBlocks hown hattended
  obtain ⟨-, hlisted, -⟩ := registration_exact_iff create_fourBlocks hstale hattended'
  exact ⟨hregistered.2 hown, (hrefused 0 0 ⟨1, hbacks⟩).1, fun hall => hends (hlisted.1 hall)⟩

/-- Registration is not exact in every state: after a worker was refused the registry of another one, the
registry names the wrong owner, and after the scope has ended, its worker still knows the slots. -/
theorem stale_registration :
    let refused : List Move :=
      [.addWorker, .addWorker, .makeRegistry 1, .enterScope 0 0, .enterScope 1 0]
    let ended : List Move := refused ++ [.drainScope 0]
    Legal (fun _ _ => True) (start (.empty fourBlocks)) ended ∧
      (start (.empty fourBlocks)).Attended {} ended ∧
      (∃ w ∈ ((start (.empty fourBlocks)).run refused).heap.workers, w.id = 0 ∧
        0 ∈ w.registries ∧ ((start (.empty fourBlocks)).run refused).heap.ownerOf 0 = some 1) ∧
      ∃ w ∈ ((start (.empty fourBlocks)).run ended).heap.workers, w.id = 0 ∧ 0 ∈ w.registries ∧
        ¬ ((start (.empty fourBlocks)).run ended).Backs (Ends.afterAll {} ended) 0 0 := by
  decide +kernel

end Machine

end EagerHeap
