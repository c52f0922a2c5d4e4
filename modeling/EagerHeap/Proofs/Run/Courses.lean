import EagerHeap.Proofs.Actions
import EagerHeap.Proofs.Run.Clients
import EagerHeap.Proofs.Run.Registrations
import EagerHeap.Proofs.Run.Sequence
/-!
# Courses of moves

A course is a machine with the ends that have begun and the ledger of its run, beside the state of a
client. Legal moves with which the owners keep to what they guarantee, and which come in the order of
their operations, lead from course to course. What every such move preserves holds of all courses that
are reached from a new heap.

Main definition: `Goes`. Main results: `Goes.trans`, `Leads.settled` and `Goes.sane`.
-/

namespace EagerHeap

/-- A machine with what its run has left to know, beside the state of a client. -/
structure Course (σ : Type) where
  /-- The machine. -/
  machine : Machine
  /-- The ends that have begun. -/
  ends : Ends := {}
  /-- The ledger of the run. -/
  ledger : Machine.Ledger := {}
  /-- The state of the client. -/
  client : σ

namespace Heap

theorem size_registries_modifyRegistry (h : Heap) (r : Nat) (u : Registry → Registry) :
    (h.modifyRegistry r u).registries.size = h.registries.size :=
  Array.size_modify

theorem size_registries_zeroSlotsOf (rs : List Nat) (h : Heap) :
    (h.zeroSlotsOf rs).2.registries.size = h.registries.size := by
  induction rs generalizing h with
  | nil => rfl
  | cons r rs ih =>
      refine (ih (h.zeroSlots r).2).trans ?_
      rw [zeroSlots]
      split
      · exact Array.size_set! _ _ _
      · rfl

theorem size_registries_recordTracked (h : Heap) (k x e : Nat) :
    ((recordTracked k x e).run h).2.registries.size = h.registries.size := by
  rw [recordTracked_run]
  split
  · rfl
  · split
    · rfl
    · split
      · rfl
      · exact size_registries_modifyRegistry h _ _

theorem size_registries_drainScope (h : Heap) (k : Nat) :
    (h.drainScope k).2.registries.size = h.registries.size := by
  rcases drainScope_cases h k with ⟨-, heq⟩ | ⟨scope, -, heq | ⟨registry, owner, _, _, heq⟩⟩
  · rw [heq]
  · rw [heq]
    rfl
  · rw [heq]
    have hfreed := congrArg Holdings.registries
      (holdings_freeTracked (registry.addresses scope.used) (h.closing k scope) scope.worker)
    exact (congrArg Array.size hfreed).trans (size_registries_modifyRegistry _ _ _)

end Heap

namespace Machine

/-- No registry is ever forgotten. -/
theorem size_registries_apply (m : Machine) (y : Move) :
    m.heap.registries.size ≤ (m.apply y).heap.registries.size := by
  by_cases hy : y.OfScopes
  · cases y with
    | retireWorker id =>
        refine apply_retireWorker (R := fun g => m.heap.registries.size ≤ g.registries.size)
          (Nat.le_refl _) fun g hr => ?_
        rcases Heap.retireWorker_cases hr with rfl | ⟨retired, rfl⟩ <;> exact Nat.le_refl _
    | makeRegistry n => exact (Nat.le_succ _).trans_eq (Array.size_push _).symm
    | dropRegistry r =>
        rw [Machine.apply, Machine.heapAfter, Heap.dropRegistry]
        split
        · exact (Heap.size_registries_modifyRegistry m.heap r _).ge
        · exact Nat.le_refl _
    | enterScope id r =>
        rw [Machine.apply, Machine.heapAfter, Heap.enterScope_run]
        split <;> exact (Heap.size_registries_modifyRegistry m.heap r _).ge
    | recordTracked k x e => exact (Heap.size_registries_recordTracked m.heap k x e).ge
    | drainScope k => exact (Heap.size_registries_drainScope m.heap k).ge
    | zeroSlots => exact (Heap.size_registries_zeroSlotsOf m.heap.knownRegistries m.heap).ge
    | addWorker | leakScope | begin | terminate | enterSweep | finish => exact Nat.le_refl _
    | _ => cases hy
  · exact (congrArg (fun g : Holdings => g.registries.size) (holdings_apply (m := m) hy)).ge

end Machine

namespace Course

open Machine

variable {σ : Type} {c d f : Course σ} {y : Move} {id : Nat}

/-- What an operation sees of a course. -/
def world (c : Course σ) : World σ := ⟨c.machine.heap, c.client⟩

/-- The course after a move. -/
def apply (c : Course σ) (y : Move) : Course σ :=
  { c with
    machine := c.machine.apply y
    ends := c.ends.after y
    ledger := c.ledger.after c.machine y }

/-- The course with another state of the client. -/
def withClient (c : Course σ) (client : σ) : Course σ := { c with client }

/-- The move can take place, and the owners keep to what they guarantee. -/
def Admits (c : Course σ) (y : Move) : Prop := c.machine.Allows y ∧ c.machine.Heeds c.ends y

/-- The worker lives, and its end has not begun. -/
def Serves (c : Course σ) (id : Nat) : Prop := c.machine.Serves c.ends id

/-- The moves lead from one course to another one, whatever becomes of the client. -/
structure Leads (c : Course σ) (ys : List Move) (d : Course σ) : Prop where
  legal : Legal (fun _ _ => True) c.machine ys
  attended : c.machine.Attended c.ends ys
  sequenced : c.machine.Sequenced c.ledger {} ys
  machine : c.machine.run ys = d.machine
  ends : c.ends.afterAll ys = d.ends
  ledger : c.machine.ledger c.ledger ys = d.ledger

/-- Some moves lead from one course to another one. -/
def Goes (c d : Course σ) : Prop := ∃ ys, c.Leads ys d

/-! ### Moves one after the other -/

/-- The owners keep to it in a run if they do in both its parts. -/
theorem attended_append
    {m : Machine} {e : Ends} {ys zs : List Move}
    (hys : m.Attended e ys)
    (hzs : (m.run ys).Attended (e.afterAll ys) zs) :
    m.Attended e (ys ++ zs) := by
  induction ys generalizing m e with
  | nil => exact hzs
  | cons y ys ih => exact ⟨hys.1, ih hys.2 hzs⟩

/-- A change of the client alone is no move. -/
theorem goes_withClient (c : Course σ) (client : σ) : c.Goes (c.withClient client) :=
  ⟨[], trivial, trivial, rfl, rfl, rfl, rfl⟩

theorem Goes.refl (c : Course σ) : c.Goes c := goes_withClient c c.client

theorem Goes.trans
    (hcd : c.Goes d)
    (hdf : d.Goes f) :
    c.Goes f := by
  obtain ⟨ys, h⟩ := hcd
  obtain ⟨zs, h'⟩ := hdf
  refine ⟨ys ++ zs, legal_append.2 ⟨h.legal, ?_⟩, attended_append h.attended ?_, h.sequenced.append ?_,
    ?_, ?_, ?_⟩
  · exact h.machine ▸ h'.legal
  · exact h.machine ▸ h.ends ▸ h'.attended
  · exact h.machine ▸ h.ledger ▸ h'.sequenced
  · rw [run_append, h.machine, h'.machine]
  · rw [Ends.afterAll, List.foldl_append]
    exact (congrArg (List.foldl Ends.after · zs) h.ends).trans h'.ends
  · rw [ledger_append, h.machine, h.ledger, h'.ledger]

/-- A move leads to the course after it if it leaves nothing pending. -/
theorem Admits.leads
    (hy : c.Admits y)
    (hs : c.machine.Sequenced c.ledger {} [y]) :
    c.Goes (c.apply y) :=
  ⟨[y], ⟨hy.1, trivial, trivial⟩, ⟨hy.2, trivial⟩, hs, rfl, rfl, rfl⟩

theorem Admits.goes
    (hy : c.Admits y)
    (hplain : y.Plain) :
    c.Goes (c.apply y) :=
  hy.leads (sequenced_of_plain hplain c.machine c.ledger)

/-- Two moves lead to the course after them if the second one does what the first one has left pending. -/
theorem Admits.leads_two
    {z : Move}
    (hy : c.Admits y)
    (hz : (c.apply y).Admits z)
    (hs : c.machine.Sequenced c.ledger {} [y, z]) :
    c.Goes ((c.apply y).apply z) :=
  ⟨[y, z], ⟨hy.1, trivial, hz.1, trivial, trivial⟩, ⟨hy.2, hz.2, trivial⟩, hs, rfl, rfl, rfl⟩

/-- Between two operations no allocation in a scope is owed, and of the large allocations those are due
that got no run of blocks. -/
theorem Leads.settled
    {ys : List Move}
    (h : c.Leads ys d) :
    (c.machine.Booked 0 ys ∧ c.machine.dueIn 0 ys = c.machine.refusedIn ys) ∧
      Along Upholds Docket.after c.machine ⟨c.ends, []⟩ ys ∧
        (notes Docket.after c.machine ⟨c.ends, []⟩ ys).owed = [] := by
  refine ⟨?_, h.sequenced.upheld h.attended⟩
  simpa only [Nat.zero_add] using h.sequenced.booked (f := 0)

/-! ### What moves preserve -/

/-- The invariant of all courses that moves reach from a new heap. -/
structure Sane (c : Course σ) : Prop where
  proper : c.machine.Proper
  shelved : c.machine.heap.Shelved
  manned : c.machine.Manned c.ends
  workers : ∀ id ∈ c.ends.workers, id < c.machine.heap.nextWorker
  registries : ∀ r ∈ c.ends.registries, r < c.machine.heap.registries.size

theorem Sane.apply
    (hc : c.Sane)
    (hy : c.Admits y) :
    (c.apply y).Sane where
  proper := hc.proper.apply hy.1
  shelved := hc.proper.shelved hc.shelved hy.1
  manned := hc.manned.apply hy.2
  workers := by
    have hnext : c.machine.heap.nextWorker ≤ (c.machine.apply y).heap.nextWorker := by
      by_cases hadd : y = .addWorker
      · rw [hadd]
        exact Nat.le_succ _
      · exact (nextWorker_apply hadd).ge
    intro id hid
    refine Nat.lt_of_lt_of_le ?_ hnext
    cases y with
    | flushWorker other =>
        rcases List.mem_cons.1 hid with rfl | hid
        · obtain ⟨w, hw, rfl⟩ := hy.2.1.1
          exact hc.shelved.fresh w hw
        · exact hc.workers id hid
    | _ => exact hc.workers id hid
  registries := by
    intro r hr
    refine Nat.lt_of_lt_of_le ?_ (size_registries_apply c.machine y)
    cases y with
    | dropRegistry other =>
        rcases List.mem_cons.1 hr with rfl | hr
        · exact hy.2.1
        · exact hc.registries r hr
    | _ => exact hc.registries r hr

theorem Goes.preserves
    {R : Machine → Ends → Prop}
    (hg : c.Goes d)
    (hc : R c.machine c.ends)
    (hstep : ∀ m e y, R m e → m.Allows y → m.Heeds e y → R (m.apply y) (e.after y)) :
    R d.machine d.ends := by
  obtain ⟨ys, h⟩ := hg
  rw [← h.machine, ← h.ends]
  exact h.attended.preserves h.legal hc hstep

/-- The invariant is one of the machine and of the ends. -/
theorem Sane.of_eq
    {τ : Type} {d : Course τ}
    (hc : c.Sane)
    (hmachine : d.machine = c.machine)
    (hends : d.ends = c.ends) :
    d.Sane := by
  obtain ⟨m, e, l, client⟩ := d
  obtain rfl : m = c.machine := hmachine
  obtain rfl : e = c.ends := hends
  exact ⟨hc.proper, hc.shelved, hc.manned, hc.workers, hc.registries⟩

theorem Goes.sane
    (hg : c.Goes d)
    (hc : c.Sane) :
    d.Sane := by
  have hd : Sane (⟨d.machine, d.ends, {}, ()⟩ : Course Unit) :=
    hg.preserves (R := fun m e => Sane (⟨m, e, {}, ()⟩ : Course Unit)) (hc.of_eq rfl rfl)
      fun m e y hm hal hheeds => (hm.apply ⟨hal, hheeds⟩).of_eq rfl rfl
  exact hd.of_eq rfl rfl

theorem Sane.withClient
    (hc : c.Sane)
    (client : σ) :
    (c.withClient client).Sane :=
  hc.of_eq rfl rfl

/-- A course of a new heap. -/
def start (h : Heap) (client : σ) : Course σ := ⟨.start h, {}, {}, client⟩

theorem sane_start
    {memory : Nat} {config : Config} {h : Heap}
    (hc : Heap.create memory config = .ok h)
    (client : σ) :
    (start h client).Sane :=
  ⟨proper_start hc, shelved_start hc, manned_start hc, nofun, nofun⟩

/-- A block keeps its span. -/
theorem Goes.hasSpan
    {i : Nat} {s : Span}
    (hg : c.Goes d)
    (hc : c.Sane)
    (hspan : c.machine.heap.arena.HasSpan i s) :
    d.machine.heap.arena.HasSpan i s :=
  (hg.preserves (R := fun m _ => m.Proper ∧ m.heap.arena.HasSpan i s) ⟨hc.proper, hspan⟩
    fun _ _ _ hm hal _ => ⟨hm.1.apply hal, (hm.1.steps hal).hasSpan hm.1.sound hm.2⟩).2

/-- The epochs are counted up. -/
theorem Goes.epoch_le
    (hg : c.Goes d)
    (hc : c.Sane) :
    c.machine.heap.epoch ≤ d.machine.heap.epoch :=
  (hg.preserves (R := fun m _ => m.Proper ∧ c.machine.heap.epoch ≤ m.heap.epoch)
    ⟨hc.proper, Nat.le_refl _⟩
    fun _ _ _ hm hal _ => ⟨hm.1.apply hal, hm.2.trans (hm.1.clock hal).1⟩).2

/-- An end that has begun is not taken back. -/
theorem Goes.ended
    (hg : c.Goes d)
    (hid : id ∈ c.ends.workers) :
    id ∈ d.ends.workers := by
  refine hg.preserves (R := fun _ e => id ∈ e.workers) hid fun m e y hmem _ _ => ?_
  cases y with
  | flushWorker other => exact List.mem_cons_of_mem _ hmem
  | _ => exact hmem

end Course

end EagerHeap
