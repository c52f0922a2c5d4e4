import EagerHeap.Action.Allocate
import EagerHeap.Action.Scope
import EagerHeap.Action.Worker
import EagerHeap.Proofs.Heap.Obtaining
import EagerHeap.Proofs.Interrupted
import EagerHeap.Proofs.Run.Unfolding
import EagerHeap.Proofs.Size.Policy
/-!
# Operations of workers as runs of moves

Allocation, eager free and growth, allocation in a scope and the end of a worker unfold into moves,
whatever moves the client makes when it is told of events. A condition holds after them if single moves
keep it and the client keeps it.

Main results: `unfolds_allocate`, `unfolds_growUnaliased` and `unfolds_dropWorker`.
-/

namespace EagerHeap

/-- A move that leaves alone where the collector stands, which batches run, and what workers, registries
and scopes are in use. -/
def Move.Routine : Move → Prop
  | .addWorker | .retireWorker _ | .count .. | .reuse .. | .claim .. | .takePartial _ | .carveBlock _
  | .setCursor .. | .carveRun .. | .free .. | .write .. | .copy .. | .attach .. | .makeRegistry _
  | .recordTracked .. | .observe | .markStep _ | .sweepStep _ => True
  | _ => False

variable {σ α : Type}

/-- Moves of a kind keep a condition. -/
def Steady (A : Course σ → Prop) (D : Move → Prop) : Prop :=
  ∀ c y, c.Sane → A c → D y → c.Admits y → A (c.apply y)

theorem Steady.routine
    {A : Course σ → Prop} {y : Move}
    (hA : Steady A Move.Routine)
    (hy : y.Routine) :
    Steady A (· = y) := by
  rintro c z hc h rfl
  exact hA c z hc h hy

namespace Course

/-- The cell at the address is an object with at least the given size, and it has the shape. -/
def Gave (c : Course σ) (x size : Nat) (shape : Shape) : Prop :=
  ∃ d, c.machine.heap.arena.Object x d ∧ size ≤ d.size ∧ d.shape = shape

/-- The object is a small one that was handed out just now, so it has no side records. -/
structure Fresh (c : Course σ) (x : Nat) : Prop where
  noted : ∃ e, c.machine.heap.epoch ≤ e ∧ (x, e) ∈ c.ledger.fresh
  bare : c.machine.heap.records.attached.find? x = none
  small : ∃ d, c.machine.heap.arena.cell? x = some d ∧ d.isLarge = false

theorem fresh_apply
    {c : Course σ} {y : Move} {x : Nat} {d : Cell}
    (hc : c.Sane)
    (hy : c.Admits y)
    (hx : c.machine.handsOut y = some x)
    (hobj : (c.apply y).machine.heap.arena.Object x d)
    (hsmall : d.isLarge = false) :
    (c.apply y).Fresh x where
  noted := by
    have hsteady : ¬ y.Does .begin ∧ ¬ y.Does .turn := by
      cases y with
      | reuse | claim | carveRun => simp [Move.Does]
      | _ => cases hx
    have hepoch := (Machine.clock_eq (m := c.machine) hsteady.1 hsteady.2).1
    exact ⟨_, hepoch.le, List.mem_append_left _ (List.mem_map.2 ⟨x, Option.mem_toList.2 hx, rfl⟩)⟩
  bare := (hc.proper.handsOut_bare hy.1 hx).2.1
  small := ⟨d, hobj.1, hsmall⟩

/-- An object stays if a move neither frees it eagerly nor reclaims it. -/
theorem Gave.apply
    {c : Course σ} {y : Move} {x size : Nat} {shape : Shape}
    (hgave : c.Gave x size shape)
    (hc : c.Sane)
    (hy : c.Admits y)
    (hpark : ¬ y.Does (.park x))
    (hreclaim : ¬ y.Does (.reclaim x)) :
    (c.apply y).Gave x size shape := by
  obtain ⟨d, hobj, hsize, hshape⟩ := hgave
  obtain ⟨hd, hcell, hst⟩ :=
    (hc.proper.steps hy.1).stays hc.proper.sound hobj.1 hobj.2 hpark hreclaim
  exact ⟨_, ⟨hcell, hst⟩, hsize, hshape⟩

end Course

namespace Action

variable {k : Hooks σ} {P A : Course σ → Prop} {Q : α → Course σ → Prop} {id size : Nat} {s : Span}
  {shape : Shape}

/-! ### Allocation -/

theorem unfolds_exhausted
    (hk : k.Hears A)
    (bytes : Nat) :
    Unfolds (exhausted k bytes : Action σ α) A Q A := by
  rw [exhausted]
  refine (unfolds_look _).bind fun arenaSize => ?_
  exact (hk.unfolds_emit _).bind fun _ => unfolds_throw _ fun _ _ h => h

/-- A block that is found serves the span, also after the client was told of it. -/
theorem unfolds_told
    (hk : k.Hears A)
    (e : Event) (i : Nat) (s : Span) :
    Unfolds (do emit k e; pure i : Action σ Nat) (fun c => A c ∧ c.machine.heap.arena.HasSpan i s)
      (fun i c => A c ∧ c.machine.heap.arena.HasSpan i s) A := by
  have hkept : k.Hears fun c => A c ∧ c.machine.heap.arena.HasSpan i s :=
    hk.and fun c d hc hg => hg.hasSpan hc
  exact (hkept.unfolds_emit e).bind fun _ => unfolds_pure fun _ _ h => h

theorem unfolds_refill
    (hA : Steady A Move.Routine)
    (hk : k.Hears A)
    (s : Span) :
    Unfolds (refill k s) A (fun i c => A c ∧ c.machine.heap.arena.HasSpan i s) A := by
  rw [refill]
  refine Unfolds.bind (Q := fun o c => A c ∧ ∀ i, o = some i → c.machine.heap.arena.HasSpan i s)
    (unfolds_change (.takePartial s) trivial (fun _ => rfl) (fun _ _ _ => ⟨trivial, trivial⟩)
      fun c hc h => ⟨hA c _ hc h trivial ⟨trivial, trivial⟩, fun i hi => ?_⟩) fun o => ?_
  · exact Heap.hasSpan_takePartial hc.proper.sound (Prod.ext hi rfl)
  · cases o with
    | some i => exact (unfolds_told hk _ i s).pre fun _ _ h => ⟨h.1, h.2 i rfl⟩
    | none =>
        refine Unfolds.bind (Q := fun o c => A c ∧ ∀ i, o = some i → c.machine.heap.arena.HasSpan i s)
          (unfolds_update (.carveBlock s) trivial (fun _ => rfl) (fun _ _ _ => ⟨trivial, trivial⟩)
            (fun c o hc h hrun => ⟨hA c _ hc h.1 trivial ⟨trivial, trivial⟩, fun i hi => ?_⟩)
            fun c _ hc h _ => hA c _ hc h.1 trivial ⟨trivial, trivial⟩) fun o => ?_
        · exact Heap.hasSpan_carveBlock hc.proper.sound (Prod.ext (hi ▸ hrun) rfl)
        · cases o with
          | some i => exact (unfolds_told hk _ i s).pre fun _ _ h => ⟨h.1, h.2 i rfl⟩
          | none => exact (unfolds_exhausted hk blockSize).pre fun _ _ h => h.1

/-- A worker that serves searches blocks for a free cell until it claims one. -/
theorem unfolds_search
    (hA : Steady A Move.Routine)
    (hk : k.Hears A)
    (hserves : ∀ c, c.Sane → A c → c.Serves id) :
    Unfolds (search k id s) A (fun x c => A c ∧ c.Gave x s.cellSize s.shape ∧ c.Fresh x) A := by
  refine Unfolds.untilSome ?_
  rw [claimOrMove]
  have hadmits : ∀ c, c.Sane → A c → c.Admits (.claim id s) := fun c hc h =>
    ⟨trivial, hserves c hc h⟩
  refine Unfolds.bind (Q := fun o c => A c ∧ ∀ x, o = some x → c.Gave x s.cellSize s.shape ∧ c.Fresh x)
    (unfolds_change (.claim id s) trivial (fun _ => rfl) hadmits
      fun c hc h => ⟨hA c _ hc h trivial (hadmits c hc h), fun x hx => ?_⟩) fun o => ?_
  · obtain ⟨-, d, hobj, hsize, hshape, hsmall⟩ := Heap.claim_object hc.proper.sound (Prod.ext hx rfl)
    exact ⟨⟨d, hobj, hsize.ge, hshape⟩, Course.fresh_apply hc (hadmits c hc h) hx hobj hsmall⟩
  · cases o with
    | some x => exact unfolds_pure fun _ _ h => h
    | none =>
        refine Unfolds.bind ((unfolds_refill hA hk s).pre fun _ _ h => h.1) fun i => ?_
        have hmoves : ∀ c, c.Sane → A c ∧ c.machine.heap.arena.HasSpan i s →
            c.Admits (.setCursor id s i) := fun c hc h => ⟨h.2, hserves c hc h.1⟩
        refine Unfolds.bind (unfolds_adjust (.setCursor id s i) trivial (fun _ => rfl) hmoves
          fun c hc h => hA c _ hc h.1 trivial (hmoves c hc h)) fun _ => ?_
        exact unfolds_pure fun _ _ h => ⟨h, fun x hx => by cases hx⟩

/-- An allocation of a worker that serves unfolds into moves and gives an object. -/
theorem unfolds_allocate
    (hA : Steady A Move.Routine)
    (hk : k.Hears A)
    (hserves : ∀ c, c.Sane → A c → c.Serves id)
    (s : Span) :
    Unfolds (allocate k id s) A (fun x c => A c ∧ c.Gave x s.cellSize s.shape ∧ c.Fresh x) A := by
  rw [allocate]
  have hadmits : ∀ c, c.Sane → A c → c.Admits (.reuse id s) := fun c hc h =>
    ⟨trivial, hserves c hc h⟩
  refine Unfolds.bind (Q := fun o c => A c ∧ ∀ x, o = some x → c.Gave x s.cellSize s.shape ∧ c.Fresh x)
    (unfolds_update (.reuse id s) trivial (fun _ => rfl) hadmits
      (fun c o hc h hrun => ⟨hA c _ hc h trivial (hadmits c hc h), fun x hx => ?_⟩)
      fun c _ hc h _ => hA c _ hc h trivial (hadmits c hc h)) fun o => ?_
  · obtain ⟨-, d, hobj, hsize, hshape, hsmall⟩ :=
      Heap.reuse_object hc.proper.sound (Prod.ext (hx ▸ hrun) rfl)
    have hgives : c.machine.handsOut (.reuse id s) = some x := by
      rw [Machine.handsOut, hrun]
      exact hx
    exact ⟨⟨d, hobj, hsize.ge, hshape⟩, Course.fresh_apply hc (hadmits c hc h) hgives hobj hsmall⟩
  · cases o with
    | some x => exact unfolds_pure fun _ _ h => ⟨h.1, h.2 x rfl⟩
    | none => exact (unfolds_search hA hk hserves).pre fun _ _ h => h.1

/-- A change that a worker has counted right before it. -/
theorem unfolds_counted
    {B : Course σ → Prop} {counter : Counter} {u : Update α}
    (y : Move)
    (hu : ∀ c : Course σ, (ExceptT.run u c.machine.heap).2 = (c.machine.apply y).heap)
    (hseq : ∀ c, c.Sane → P c → c.machine.Sequenced c.ledger {} [.count id counter 1, y])
    (hcount : ∀ c, c.Sane → P c → B (c.apply (.count id counter 1)))
    (hadmits : ∀ c, c.Sane → B c → c.Admits y)
    (hok : ∀ c a, c.Sane → B c → (ExceptT.run u c.machine.heap).1 = .ok a → Q a (c.apply y))
    (herror : ∀ c o, c.Sane → B c → (ExceptT.run u c.machine.heap).1 = .error o → A (c.apply y)) :
    Unfolds (adjust (·.count id counter 1) >>= fun _ => update u : Action σ α) P Q A := by
  have hcounted (c : Course σ) : c.Admits (.count id counter 1) := ⟨trivial, trivial⟩
  have hsane (c : Course σ) (hc : c.Sane) : (c.apply (.count id counter 1)).Sane :=
    hc.apply (hcounted c)
  refine unfolds_moves (fun c => (c.apply (.count id counter 1)).apply y)
    (fun h => (ExceptT.run u (h.count id counter 1)).1) (fun c => ?_) (fun c hc h => ?_) ?_ ?_
  · exact congrArg (fun h => (_, ({ heap := h, client := c.client } : World σ)))
      (hu (c.apply (.count id counter 1)))
  · exact (hcounted c).leads_two (hadmits _ (hsane c hc) (hcount c hc h)) (hseq c hc h)
  · exact fun c a hc h => hok _ a (hsane c hc) (hcount c hc h)
  · exact fun c o hc h => herror _ o (hsane c hc) (hcount c hc h)

/-- A large allocation is counted before its run of blocks is carved. -/
theorem unfolds_allocateLarge
    (hA : Steady A Move.Routine)
    (hk : k.Hears A)
    (hserves : ∀ c, c.Sane → A c → c.Serves id)
    (size : Nat) (shape : Shape) :
    Unfolds (adjust (·.count id .slowAllocations 1) >>= fun _ => allocateLarge k size shape) A
      (fun x c => A c ∧ c.Gave x size shape) A := by
  have hadmits : ∀ c : Course σ, c.Admits (.carveRun (blocksFor (max size 1)) shape) :=
    fun c => ⟨blocksFor_pos size, trivial⟩
  simp only [allocateLarge, ← bind_assoc]
  refine Unfolds.bind (Q := fun o c => A c ∧ ∀ x, o = some x → c.Gave x size shape)
    (unfolds_counted (B := A) (.carveRun (blocksFor (max size 1)) shape) (fun _ => rfl)
      (fun c hc h => Machine.sequenced_large (hserves c hc h).1 c.ledger _ shape)
      (fun c hc h => hA c _ hc h trivial ⟨trivial, trivial⟩) (fun c _ _ => hadmits c)
      (fun c o hc h hrun => ⟨hA c _ hc h trivial (hadmits c), fun x hx => ?_⟩)
      fun c _ hc h _ => hA c _ hc h trivial (hadmits c)) fun o => ?_
  · obtain ⟨-, d, hobj, hsize, hshape⟩ :=
      Heap.carveRun_object hc.proper.sound (blocksFor_pos size) (Prod.ext (hx ▸ hrun) rfl)
    refine ⟨d, hobj, ?_, hshape⟩
    rw [hsize]
    exact (Nat.le_max_left size 1).trans (le_blocksFor _)
  · cases o with
    | some x => exact unfolds_pure fun _ _ h => ⟨h.1, h.2 x rfl⟩
    | none =>
        refine Unfolds.bind ((retains_checked _).pre fun _ _ h => h.1) fun n => ?_
        exact unfolds_exhausted hk n

/-- An allocation of bytes gives an object with room for them. -/
theorem unfolds_allocateBytes
    (hA : Steady A Move.Routine)
    (hk : k.Hears A)
    (hserves : ∀ c, c.Sane → A c → c.Serves id)
    (size : Nat) (shape : Shape) :
    Unfolds (allocateBytes k id size shape) A (fun x c => A c ∧ c.Gave x size shape) A := by
  rw [allocateBytes]
  cases hclass : SizeClass.forSize? size with
  | some cl =>
      refine (unfolds_allocate hA hk hserves ⟨cl, shape⟩).post fun x c _ h => ⟨h.1, ?_⟩
      obtain ⟨d, hobj, hsize, hshape⟩ := h.2.1
      exact ⟨d, hobj, (SizeClass.le_size hclass).trans hsize, hshape⟩
  | none => exact unfolds_allocateLarge hA hk hserves size shape

/-! ### Eager free and growth -/

/-- An eager free is one move, after which the client may be told that it was declined. -/
theorem retains_tryFree
    {addr : Nat}
    (hA : Steady A (· = .free id addr size (some shape)))
    (hk : k.Hears A)
    (hserves : ∀ c, c.Sane → A c → c.Serves id) :
    Retains (tryFree k id addr size shape) A := by
  rw [tryFree]
  have hadmits : ∀ c, c.Sane → A c → c.Admits (.free id addr size (some shape)) := fun c hc h =>
    ⟨trivial, hserves c hc h⟩
  refine Unfolds.bind (Q := fun _ => A) (unfolds_change (.free id addr size (some shape)) trivial
    (fun _ => rfl) hadmits fun c hc h => hA c _ hc h rfl (hadmits c hc h)) fun o => ?_
  cases o with
  | none => exact retains_pure true
  | some reason => exact (hk.unfolds_emit _).bind fun _ => retains_pure false

/-- A worker that serves counts a growth. -/
theorem retains_count
    {counter : Counter}
    (hA : Steady A (· = .count id counter 1))
    (hserves : ∀ c, c.Sane → A c → c.Serves id)
    (hcounter : counter = .growCalls ∨ counter = .growFrees) :
    Retains (adjust (·.count id counter 1) : Action σ Unit) A := by
  refine unfolds_moves (·.apply (.count id counter 1)) (fun _ => .ok ()) (fun _ => rfl) (fun c hc h => ?_)
    (fun c _ hc h _ => hA c _ hc h rfl ⟨trivial, trivial⟩) fun _ _ _ _ h => nomatch h
  refine Course.Admits.leads ⟨trivial, trivial⟩ ?_
  rcases hcounter with rfl | rfl <;> exact ⟨⟨(hserves c hc h).1, trivial, rfl⟩, rfl⟩

/-- Letting an old buffer go, and giving a result afterwards. -/
theorem unfolds_letGo
    {β : Type}
    (old new size : Nat) (shape : Shape)
    (hfree : old ≠ new → Steady A (· = .free id old size (some shape)))
    (hcount : Steady A (· = .count id .growFrees 1))
    (hk : k.Hears A)
    (hserves : ∀ c, c.Sane → A c → c.Serves id)
    (b : β) :
    Unfolds (if old ≠ 0 ∧ old ≠ new then
        tryFree k id old size shape >>= fun freed =>
          if freed = true then adjust (·.count id .growFrees 1) >>= fun _ => pure b else pure b
      else pure b) A (fun r c => A c ∧ r = b) A := by
  have hdone : Unfolds (pure b : Action σ β) A (fun r c => A c ∧ r = b) A :=
    unfolds_pure fun _ _ h => ⟨h, rfl⟩
  refine unfolds_ite (fun hold => ?_) fun _ => hdone
  refine (retains_tryFree (hfree hold.2) hk hserves).bind fun freed => ?_
  exact unfolds_ite (fun _ => (retains_count hcount hserves (Or.inr rfl)).bind fun _ => hdone)
    fun _ => hdone

/-- The growth of a buffer unfolds into moves. If the client leaves objects alone, the new buffer is still
there afterwards. -/
theorem unfolds_growUnaliased
    {elementSize length : Nat}
    (kept : Prop)
    (hA : Steady A Move.Routine)
    (hk : k.Hears A)
    (hserves : ∀ c, c.Sane → A c → c.Serves id)
    (hpos : kept → 0 < elementSize)
    (hkept : kept → ∀ x size, k.Hears fun c => A c ∧ c.Gave x size shape)
    (oldAddr oldCapacity extra : Nat) :
    Unfolds (growUnaliased k id oldAddr oldCapacity length elementSize shape extra) A
      (fun r c => A c ∧ (kept → length ≤ r.2 ∧ c.Gave r.1 (r.2 * elementSize) shape)) A := by
  rw [growUnaliased]
  refine unfolds_ite (fun hzero => unfolds_pure fun _ _ h =>
    ⟨h, fun hkeeps => absurd hzero (hpos hkeeps).ne'⟩) fun _ => ?_
  refine unfolds_ite (fun _ => unfolds_throw_bind _ fun _ _ h => h) fun _ => ?_
  refine (retains_count (hA.routine trivial) hserves (Or.inl rfl)).bind fun _ => ?_
  refine (retains_result _).bind fun capacity => ?_
  intro c hc ⟨h, hcapacity⟩
  have hlength := (Nat.le_max_left length 1).trans (le_nextCapacity hcapacity)
  revert h hc c
  refine Unfolds.bind (unfolds_allocateBytes hA hk hserves (capacity * elementSize) shape) fun addr => ?_
  -- From here on the new buffer is there, unless the client takes it when a free is declined.
  have hlet : ∀ size, Unfolds (if oldAddr ≠ 0 ∧ oldAddr ≠ addr then
        tryFree k id oldAddr size shape >>= fun freed =>
          if freed = true then adjust (·.count id .growFrees 1) >>= fun _ => pure (addr, capacity)
          else pure (addr, capacity)
      else pure (addr, capacity)) (fun c => A c ∧ c.Gave addr (capacity * elementSize) shape)
      (fun r c => A c ∧ (kept → length ≤ r.2 ∧ c.Gave r.1 (r.2 * elementSize) shape)) A := by
    intro size
    have hletGo := unfolds_letGo (β := Nat × Nat) oldAddr addr size shape
      (A := fun c => A c ∧ (kept → c.Gave addr (capacity * elementSize) shape))
      (fun hne => ?_) ?_ (hk.imp fun hkeeps => hkept hkeeps addr _)
      (fun c hc h => hserves c hc h.1) (addr, capacity)
    · refine hletGo.mono (fun c _ h => ⟨h.1, fun _ => h.2⟩) ?_ fun _ _ h => h.1
      rintro r c hc ⟨⟨h, hgave⟩, rfl⟩
      exact ⟨h, fun hkeeps => ⟨hlength, hgave hkeeps⟩⟩
    · rintro c y hc ⟨h, hgave⟩ rfl hy
      exact ⟨hA c _ hc h trivial hy, fun hkeeps => (hgave hkeeps).apply hc hy
        (by simpa [Move.Does] using Ne.symm hne) (by simp [Move.Does])⟩
    · rintro c y hc ⟨h, hgave⟩ rfl hy
      exact ⟨hA c _ hc h trivial hy, fun hkeeps => (hgave hkeeps).apply hc hy
        (by simp [Move.Does]) (by simp [Move.Does])⟩
  refine unfolds_ite (fun _ => ?_) fun _ => hlet _
  refine Unfolds.bind (Q := fun _ c => A c ∧ c.Gave addr (capacity * elementSize) shape) ?_
    fun _ => hlet _
  have hadmits : ∀ c : Course σ, c.Gave addr (capacity * elementSize) shape →
      c.Admits (.copy oldAddr addr (min (length - extra) oldCapacity * elementSize) shape) := by
    rintro c ⟨d, hobj, hsize, hshape⟩
    have hfits : min (length - extra) oldCapacity ≤ capacity := by omega
    exact ⟨⟨d, hobj.1, hobj.2, hshape, (Nat.mul_le_mul_right _ hfits).trans hsize⟩, trivial⟩
  exact unfolds_adjust (.copy oldAddr addr (min (length - extra) oldCapacity * elementSize) shape) trivial
    (fun _ => rfl) (fun c _ h => hadmits c h.2) fun c hc h =>
      ⟨hA c _ hc h.1 trivial (hadmits c h.2), h.2.apply hc (hadmits c h.2) (by simp [Move.Does])
        (by simp [Move.Does])⟩

/-! ### Scopes and the ends of workers -/

/-- The worker of an open scope serves. -/
theorem serves_of_open
    {c : Course σ} {n : Nat} {scope : Scope}
    (hc : c.Sane)
    (hopen : c.machine.heap.Open n scope) :
    c.Serves scope.worker :=
  hc.manned.serving n _ hopen.post?_eq rfl

/-- An object is allocated for the worker of a scope, counted, and recorded in the slots of the scope,
which is still open then. -/
theorem retains_allocateTracked
    {n : Nat}
    (hA : Steady A Move.Routine)
    (hk : k.Hears A)
    (hopen : ∀ c, A c → ∃ scope, c.machine.heap.Open n scope ∧ scope.worker = id)
    (s : Span) :
    Retains (allocateTracked k n s) A := by
  rw [allocateTracked]
  refine Unfolds.bind (Q := fun v c => A c ∧ v = id) (unfolds_view fun c _ h => ⟨h, ?_⟩) fun v => ?_
  · obtain ⟨scope, hscope, rfl⟩ := hopen c h
    rw [hscope.1]
    rfl
  refine Unfolds.bind (Q := fun e c => (A c ∧ e ≤ c.machine.heap.epoch) ∧ v = id)
    (unfolds_view fun c _ h => ⟨⟨h.1, Nat.le_refl _⟩, h.2⟩) fun allocatedAt => ?_
  rintro c hc ⟨h, rfl⟩
  revert h hc c
  have hserves : ∀ c, c.Sane → A c → c.Serves v := by
    intro c hc h
    obtain ⟨scope, hscope, rfl⟩ := hopen c h
    exact serves_of_open hc hscope
  -- The epoch that was noted is not after the one in which the object is handed out.
  have hnoted : Steady (fun c => A c ∧ allocatedAt ≤ c.machine.heap.epoch) Move.Routine :=
    fun c y hc h hroutine hy =>
      ⟨hA c y hc h.1 hroutine hy, h.2.trans (hc.proper.clock hy.1).1⟩
  have hhears : k.Hears fun c => A c ∧ allocatedAt ≤ c.machine.heap.epoch :=
    hk.and fun _ _ hc hg h => h.trans (hg.epoch_le hc)
  refine Unfolds.bind ((unfolds_allocate hnoted hhears (fun c hc h => hserves c hc h.1) s).mono
    (fun _ _ h => h) (fun _ _ _ h => h) fun _ _ h => h.1) fun addr => ?_
  have hadmits : ∀ c, A c → c.Admits (.recordTracked n addr allocatedAt) := fun c h =>
    ⟨trivial, (hopen c h).imp fun _ h => h.1⟩
  rw [← bind_assoc]
  refine Unfolds.bind (Q := fun _ => A) (unfolds_counted (B := A) (.recordTracked n addr allocatedAt)
    (fun _ => rfl) (fun c hc h => ?_) (fun c hc h => hA c _ hc h.1.1 trivial ⟨trivial, trivial⟩)
    (fun c _ h => hadmits c h) (fun c _ hc h _ => hA c _ hc h trivial (hadmits c h))
    fun c _ hc h _ => hA c _ hc h trivial (hadmits c h)) fun _ => retains_pure addr
  obtain ⟨⟨h, hepoch⟩, -, hfresh⟩ := h
  obtain ⟨e, hle, hmem⟩ := hfresh.noted
  obtain ⟨scope, hscope, rfl⟩ := hopen c h
  exact Machine.sequenced_tracked (hserves c hc h).1 hscope.1
    (fun _ => ⟨_, hmem, rfl, hepoch.trans hle⟩) fun _ => ⟨hfresh.bare, hfresh.small⟩

/-- A worker that serves and has no open scope ends: its cells and blocks go back, the client may be told,
and the heap forgets the worker. -/
theorem unfolds_dropWorker
    (hA : Steady A Move.Routine)
    (hk : k.Hears A)
    (hadmits : ∀ c, c.Sane → P c → c.Admits (.flushWorker id))
    (hflush : ∀ c, c.Sane → P c → A (c.apply (.flushWorker id))) :
    Unfolds (dropWorker k id) P (fun _ => A) A := by
  rw [dropWorker]
  have hended : k.Hears fun c => A c ∧ id ∈ c.ends.workers := hk.and fun _ _ _ hg => hg.ended
  refine Unfolds.bind (Q := fun _ c => A c ∧ id ∈ c.ends.workers)
    (unfolds_change (.flushWorker id) trivial (fun _ => rfl) hadmits
      fun c hc h => ⟨hflush c hc h, List.mem_cons_self⟩) fun flushed => ?_
  refine (hended.unfolds_emit _).bind fun _ => ?_
  refine Unfolds.bind (Q := fun r c => (A c ∧ id ∈ c.ends.workers) ∧
    r = c.machine.heap.retireWorker id) (unfolds_view fun c _ h => ⟨h, rfl⟩) fun r => ?_
  have hmoves : ∀ c, (A c ∧ id ∈ c.ends.workers) ∧ r = c.machine.heap.retireWorker id →
      c.Admits (.retireWorker id) := fun c h => ⟨trivial, h.1.2⟩
  cases r with
  | ok heap =>
      intro c hc h
      have hheap : heap = (c.machine.apply (.retireWorker id)).heap := by
        change heap = (c.machine.heap.retireWorker id).toOption.getD c.machine.heap
        rw [← h.2]
        rfl
      refine ⟨c.apply (.retireWorker id), (hmoves c h).goes trivial, Or.inl ⟨(), ?_, ?_⟩⟩
      · exact congrArg (fun g => (Except.ok (), ({ heap := g, client := c.client } : World σ))) hheap
      · exact hA c _ hc h.1.1 trivial (hmoves c h)
  | error e => exact unfolds_throw _ fun _ _ h => h.1.1

end Action

end EagerHeap
