import EagerHeap.Proofs.Run.Scopes
/-!
# Tracked allocations in a run

Whatever happens between the moves of a scope, and however the scope ends, the worker counts exactly
one fate for each of its tracked allocations, or the allocation is in a slot of an open or leaked
scope, or its free was declined when its scope was drained. A scope that is not leaked is drained
once: every other drain finds that the registry has no owner, and does nothing.

Main results: `Reconciled.upholds` and `Reconciled.run`.
-/

namespace EagerHeap

namespace Machine

/-- Why a move that drains a scope of a worker declines to free objects. -/
def declinedAt (m : Machine) (id : Nat) : Move → List Rejection
  | .drainScope k =>
    match m.heap.scopes[k]? with
    | some s => if s.worker = id then (m.heap.closing k s).declined id (m.heap.addressesIn s) else []
    | none => []
  | _ => []

/-- Why the drains of a run declined to free objects of a worker. -/
def declinedIn : Machine → Nat → List Move → List Rejection
  | _, _, [] => []
  | m, id, y :: ys => m.declinedAt id y ++ declinedIn (m.apply y) id ys

/-- The move drains a scope whose registry names an owner. -/
def Drains (m : Machine) (k : Nat) (y : Move) : Prop :=
  y = .drainScope k ∧ ∃ s, m.heap.scopes[k]? = some s ∧ (m.heap.ownerOf s.registry).isSome = true

instance decidableDrains (m : Machine) (k : Nat) (y : Move) : Decidable (m.Drains k y) :=
  inferInstanceAs (Decidable (y = .drainScope k ∧
    ∃ s, m.heap.scopes[k]? = some s ∧ (m.heap.ownerOf s.registry).isSome = true))

/-- The number of times that a scope is drained in a run. -/
def drainsIn : Machine → Nat → List Move → Nat
  | _, _, [] => 0
  | m, k, y :: ys => (if m.Drains k y then 1 else 0) + drainsIn (m.apply y) k ys

variable {P : Machine → Move → Prop} {m : Machine} {a : Docket} {y : Move} {ys : List Move}
  {D N : Nat → Nat} {k id : Nat} {s : Scope} {memory : Nat} {c : Config} {h : Heap}

open Heap

/-- The account of tracked allocations. The allocations that a live worker counted and that did not
come to nothing are in slots of its open and leaked scopes, or their frees were declined, or they are
owed. A scope was drained once if it is closed, and never if it is open or leaked. -/
structure Reconciled (m : Machine) (a : Docket) (D N : Nat → Nat) : Prop where
  proper : m.Proper
  shelved : m.heap.Shelved
  manned : m.Manned a.ends
  enrolled : m.Enrolled a.ends
  scopes : m.heap.Scoped (· ∈ a.ends.registries)
  roomy : m.heap.Roomy
  outstanding : m.heap.Outstanding fun id => D id + a.owed.count id
  young : ∀ id, m.heap.nextWorker ≤ id → D id = 0 ∧ id ∉ a.owed
  drained : ∀ k, N k = if (m.heap.post? k).any (·.status = .closed) then 1 else 0

/-! ### One move -/

/-- A move that neither counts, nor records, nor drains leaves what is outstanding. -/
theorem Reconciled.outstanding_same
    (hm : m.Reconciled a D N)
    (hy : m.Heeds a.ends y)
    (hcount : ∀ id c n, y ≠ .count id c n)
    (hrecord : ∀ k x t, y ≠ .recordTracked k x t)
    (hdrain : ∀ k, y ≠ .drainScope k) :
    (m.apply y).heap.Outstanding fun id => D id + a.owed.count id := by
  have ho := hm.outstanding
  have hkept : ¬ y.OfScopes → (m.apply y).heap.debts = m.heap.debts →
      (m.apply y).heap.Outstanding fun id => D id + a.owed.count id := fun hscopes hdebts =>
    ho.of_scopes hdebts (congrArg Holdings.scopes (holdings_apply hscopes))
  cases y with
  | count id c n => exact absurd rfl (hcount id c n)
  | recordTracked k x t => exact absurd rfl (hrecord k x t)
  | drainScope k => exact absurd rfl (hdrain k)
  | addWorker =>
      obtain ⟨hnone, hnot⟩ := hm.young _ (Nat.le_refl m.heap.nextWorker)
      refine ho.addWorker (slotsUsed_eq_zero fun k p hp => ?_) ?_
      · exact (hm.enrolled.known k p hp).ne
      · rw [hnone, List.count_eq_zero_of_not_mem hnot]
        rfl
  | retireWorker id =>
      exact apply_retireWorker (R := fun g => g.Outstanding _) ho fun g hr => ho.retireWorker hr
  | flushWorker id => exact hkept (fun h => h) (debts_flushWorker m.heap id)
  | reuse id s => exact hkept (fun h => h) (debts_reuse m.heap id s)
  | claim id s => exact hkept (fun h => h) (debts_claim m.heap id s)
  | setCursor id s block => exact hkept (fun h => h) (debts_setCursor m.heap id s ⟨block, 0⟩)
  | free id x size shape => exact hkept (fun h => h) (debts_free m.heap id x size shape)
  | enterScope id r =>
      exact ho.of_same (debts_enterScope m.heap id r) (slotsUsed_enterScope m.heap id r)
  | leakScope k =>
      obtain ⟨s, hs⟩ := hy
      exact ho.of_same rfl (slotsUsed_leakScope hs)
  | dropRegistry r =>
      refine ho.of_scopes (debts_dropRegistry m.heap r) ?_
      change (m.heap.dropRegistry r).scopes = m.heap.scopes
      rw [Heap.dropRegistry]
      split <;> rfl
  | zeroSlots =>
      exact ho.of_scopes (debts_of_workers (workers_invalidateSlots m.heap).1)
        (zeroes_invalidateSlots m.heap).scopes
  | makeRegistry | begin | terminate | enterSweep | finish => exact ho.of_scopes rfl rfl
  | _ => exact hkept (fun h => h) (debts_of_clients (clients_apply fun h => h))

theorem declinedAt_of_open
    (hs : m.heap.Open k s)
    (id : Nat) :
    m.declinedAt id (.drainScope k) =
      if s.worker = id then (m.heap.closing k s).declined id (m.heap.addressesIn s) else [] := by
  rw [declinedAt, hs.1]

/-- A worker that counts a tracked allocation owes to record it. -/
theorem Reconciled.outstanding_count
    {r : Counter} {n : Nat}
    (hm : m.Reconciled a D N)
    (hy : m.Upholds a (.count id r n)) :
    (m.apply (.count id r n)).heap.Outstanding fun d =>
      D d + (a.after m (.count id r n)).owed.count d := by
  obtain ⟨-, -, hapart, rfl⟩ := hy
  refine (hm.outstanding.count id r 1).congr fun d => ?_
  cases r with
  | trackedAllocations =>
      change _ = (D d : ℤ) + (id :: a.owed).count d
      rw [List.count_cons]
      by_cases hd : d = id
      · simp [hd, Counter.trackSign]
        omega
      · simp [hd, Ne.symm hd]
  | slowAllocations | growCalls | growFrees =>
      change _ = (D d : ℤ) + a.owed.count d
      simp [Counter.trackSign]
  | _ => cases hapart

/-- Recording an object settles what its worker owes. -/
theorem Reconciled.outstanding_recordTracked
    {x t : Nat}
    (hm : m.Reconciled a D N)
    (hy : m.Upholds a (.recordTracked k x t)) :
    (m.apply (.recordTracked k x t)).heap.Outstanding fun d =>
      D d + (a.after m (.recordTracked k x t)).owed.count d := by
  obtain ⟨⟨s, hs⟩, s', hs', hmem⟩ := hy
  obtain rfl := Option.some.inj (hs.1.symm.trans hs')
  have howed : (a.after m (.recordTracked k x t)).owed = a.owed.erase s.worker := by
    rw [Docket.after]
    simp only [hs.1]
  have hpos := List.count_pos_iff.2 hmem
  refine (hm.outstanding.recordTracked hs x t).congr fun d => ?_
  rw [howed, List.count_erase]
  by_cases hd : d = s.worker
  · simp only [hd, beq_self_eq_true, if_true]
    omega
  · simp [hd, Ne.symm hd]

/-- Draining a scope leaves the allocations whose frees are declined. -/
theorem Reconciled.outstanding_drainScope
    (hm : m.Reconciled a D N)
    (hs : m.heap.Open k s) :
    (m.apply (.drainScope k)).heap.Outstanding fun d =>
      ((D d + (m.declinedAt d (.drainScope k)).length : ℕ) : ℤ) + a.owed.count d := by
  refine (hm.outstanding.drainScope hm.roomy hs (hm.scopes.owned k s hs)).congr fun d => ?_
  rw [declinedAt_of_open hs]
  by_cases hd : d = s.worker
  · rw [if_pos hd, if_pos hd.symm, hd]
    push_cast
    omega
  · rw [if_neg hd, if_neg (Ne.symm hd)]
    simp

/-- What is outstanding after a move. -/
theorem Reconciled.outstanding_upholds
    (hm : m.Reconciled a D N)
    (hy : m.Upholds a y) :
    (m.apply y).heap.Outstanding fun id =>
      ((D id + (m.declinedAt id y).length : ℕ) : ℤ) + (a.after m y).owed.count id := by
  cases y with
  | drainScope k =>
      obtain ⟨s, hs⟩ := hy.1
      exact hm.outstanding_drainScope hs
  | count id r n => exact hm.outstanding_count hy
  | recordTracked k x t => exact hm.outstanding_recordTracked hy
  | _ =>
      exact hm.outstanding_same hy.1 (fun _ _ _ => Move.noConfusion)
        (fun _ _ _ => Move.noConfusion) fun _ => Move.noConfusion

/-- A worker that is to come has nothing outstanding. -/
theorem Reconciled.young_upholds
    (hm : m.Reconciled a D N)
    (hy : m.Upholds a y)
    (hid : (m.apply y).heap.nextWorker ≤ id) :
    D id + (m.declinedAt id y).length = 0 ∧ id ∉ (a.after m y).owed := by
  have hnext : m.heap.nextWorker ≤ (m.apply y).heap.nextWorker := by
    by_cases hadd : y = .addWorker
    · rw [hadd]
      exact Nat.le_succ _
    · exact (nextWorker_apply hadd).ge
  obtain ⟨hnone, hnot⟩ := hm.young id (Nat.le_trans hnext hid)
  have hlt : ∀ n, n < m.heap.nextWorker → n ≠ id := fun n hn heq => by omega
  cases y with
  | count d c n =>
      refine ⟨hnone, ?_⟩
      obtain ⟨⟨w, hw, rfl⟩, -⟩ := hy.2
      change id ∉ if c = .trackedAllocations then w.id :: a.owed else a.owed
      split
      · rw [List.mem_cons, not_or]
        exact ⟨Ne.symm (hlt _ (hm.shelved.fresh w hw)), hnot⟩
      · exact hnot
  | recordTracked k x t =>
      refine ⟨hnone, fun hmem => hnot ?_⟩
      rw [Docket.after] at hmem
      dsimp only at hmem
      split at hmem
      · exact List.mem_of_mem_erase hmem
      · exact hmem
  | drainScope k =>
      obtain ⟨s, hs⟩ := hy.1
      refine ⟨?_, hnot⟩
      rw [hnone, declinedAt_of_open hs, if_neg (hlt _ (hm.enrolled.known k _ hs.post?_eq))]
      rfl
  | _ => exact ⟨hnone, hnot⟩

/-- A move drains a scope if it finds it open, and the scope is closed afterwards. -/
theorem Reconciled.drained_upholds
    (hm : m.Reconciled a D N)
    (hy : m.Upholds a y)
    (k : Nat) :
    (N k + if m.Drains k y then 1 else 0) =
      if ((m.apply y).heap.post? k).any (·.status = .closed) then 1 else 0 := by
  have hbefore := hm.drained k
  have hnever : (∀ l, y ≠ .drainScope l) → ¬ m.Drains k y := fun hne hdrains => hne k hdrains.1
  rw [post?_apply]
  cases y with
  | enterScope id r =>
      rw [if_neg (hnever fun _ => Move.noConfusion), hbefore, postAfter]
      by_cases hnew : m.heap.ownerOf r = none ∧ k = m.heap.scopes.size
      · rw [if_pos hnew, hnew.2, post?, Array.getElem?_eq_none (Nat.le_refl _)]
        rfl
      · rw [if_neg hnew, Nat.add_zero]
  | drainScope l =>
      obtain ⟨s, hs⟩ := hy.1
      rw [postAfter]
      by_cases hk : k = l
      · obtain rfl := hk
        have hdrains : m.Drains k (.drainScope k) := ⟨rfl, s, hs.1, hm.scopes.owned k s hs⟩
        rw [hs.post?_eq] at hbefore
        rw [hbefore, if_pos hdrains, if_pos rfl, hs.post?_eq]
        rfl
      · have hdrains : ¬ m.Drains k (.drainScope l) := fun hdrains =>
          hk (Move.drainScope.inj hdrains.1).symm
        rw [hbefore, if_neg hdrains, if_neg hk]
        rfl
  | leakScope l =>
      obtain ⟨s, hs⟩ := hy.1
      rw [if_neg (hnever fun _ => Move.noConfusion), hbefore, postAfter]
      by_cases hk : k = l
      · rw [if_pos hk, hk, hs.post?_eq]
        rfl
      · rw [if_neg hk, Nat.add_zero]
  | _ =>
      rw [if_neg (hnever fun _ => Move.noConfusion), hbefore]
      rfl

/-- Every move of those who use scopes keeps the account. -/
theorem Reconciled.upholds
    (hm : m.Reconciled a D N)
    (hy : m.Allows y)
    (hu : m.Upholds a y) :
    (m.apply y).Reconciled (a.after m y) (fun id => D id + (m.declinedAt id y).length)
      fun k => N k + if m.Drains k y then 1 else 0 where
  proper := hm.proper.apply hy
  shelved := hm.proper.shelved hm.shelved hy
  manned := hm.manned.apply hu.1
  enrolled := hm.enrolled.apply hm.shelved hu.1
  scopes := hu.1.scopes hm.manned hm.scopes
  roomy := roomy_apply hm.roomy fun _ _ _ heq => by
    obtain rfl := heq
    exact hu.1
  outstanding := hm.outstanding_upholds hu
  young := fun _ hid => hm.young_upholds hu hid
  drained := hm.drained_upholds hu

/-- A drain that is repeated declines nothing and drains nothing. -/
theorem Repeats.nothing
    (hr : m.Repeats y)
    (hroom : m.heap.Roomy) :
    (∀ id, m.declinedAt id y = []) ∧ ∀ k, ¬ m.Drains k y := by
  cases y with
  | drainScope k =>
      obtain ⟨s, hs, hclosed, ho⟩ := hr
      refine ⟨fun id => ?_, ?_⟩
      · have hempty : m.heap.addressesIn s = [] := by
          rw [← List.length_eq_zero_iff, hroom.length_addressesIn hs, hroom.closed k s hs hclosed]
        rw [declinedAt, hs]
        simp only [hempty]
        split <;> rfl
      · rintro l ⟨heq, t, ht, howned⟩
        obtain rfl := Move.drainScope.inj heq
        obtain rfl := Option.some.inj (hs.symm.trans ht)
        rw [ho] at howned
        cases howned
  | _ => cases hr

/-- A run keeps the account. -/
theorem Reconciled.run
    (hm : m.Reconciled a D N)
    (hl : Legal P m ys)
    (hu : Along Upholds Docket.after m a ys) :
    (m.run ys).Reconciled (notes Docket.after m a ys) (fun id => D id + (m.declinedIn id ys).length)
      fun k => N k + m.drainsIn k ys := by
  induction ys generalizing m a D N with
  | nil => exact hm
  | cons y ys ih =>
      simp only [declinedIn, drainsIn, List.length_append, ← Nat.add_assoc]
      rcases hu.1 with hr | hy
      · obtain ⟨hdeclined, hdrains⟩ := hr.nothing hm.roomy
        have hsame := hr.apply_eq hm.roomy
        have hrest := ih (m := m.apply y) (a := a.after m y) (D := D) (N := N)
          (by rw [hsame, Docket.after_of_repeats hr]; exact hm) hl.2.2 hu.2
        simp only [hdeclined, hdrains, List.length_nil, Nat.add_zero, if_false]
        exact hrest
      · exact ih (hm.upholds hl.1 hy) hl.2.2 hu.2

theorem reconciled_start
    (hc : Heap.create memory c = .ok h) :
    (start h).Reconciled {} (fun _ => 0) fun _ => 0 := by
  have hmanned := manned_start hc
  have henrolled := enrolled_start hc
  have hscopes := (tracking_start hc).scopes
  have hshelved := shelved_start hc
  have hproper := proper_start hc
  obtain ⟨-, rfl⟩ := create_eq_ok hc
  refine ⟨hproper, hshelved, hmanned, henrolled, hscopes, ⟨fun k s hs => ?_, fun k s hs => ?_⟩,
    fun p hp => ?_, fun id _ => ⟨rfl, List.not_mem_nil⟩, fun k => rfl⟩
  · cases hs
  · cases hs
  · cases hp

end Machine

end EagerHeap
