import EagerHeap.Proofs.Cycle.Collected
import EagerHeap.Proofs.Heap.Balance
import EagerHeap.Proofs.Heap.Disposable
import EagerHeap.Proofs.Run.Consulted
import EagerHeap.Proofs.Run.Growth
/-!
# Buffers to which elements are appended

A buffer starts without an object and grows whenever an element is appended for which there is no room.
If the bytes of every capacity that is given up are within the limits of eager free, every growth but
the first one frees the object that it replaces.

Main result: `growths_free_replaced`.
-/

namespace EagerHeap

/-- A buffer that grows as elements are appended. As long as its capacity is zero it has no object. -/
structure Buffer where
  /-- The address of its object. -/
  addr : Nat := 0
  /-- The elements for which there is room. -/
  capacity : Nat := 0
  /-- The elements that were appended. -/
  length : Nat := 0

/-- The object of a buffer and its capacity. -/
def Buffer.incarnation (b : Buffer) : Nat × Nat := (b.addr, b.capacity)

/-- One growth of a buffer. -/
structure BufferGrowth where
  /-- The heap before the growth. -/
  before : Heap
  /-- The heap after the growth. -/
  after : Heap
  /-- The buffer before the growth. -/
  old : Buffer
  /-- The buffer after the growth. -/
  new : Buffer

/-- The growth has freed the object of the old buffer eagerly. -/
def BufferGrowth.Frees (g : BufferGrowth) : Prop :=
  ∃ k, g.before.arena.Object g.old.addr k ∧
    g.after.arena.cell? g.old.addr = some { k with header := k.header.withState .cached }

namespace Heap

/-! ### What counts the eager frees of growths -/

theorem growFrees_recordTracked (h : Heap) (k x t : Nat) :
    ((recordTracked k x t).run h).2.counted .growFrees = h.counted .growFrees := by
  rw [recordTracked_run]
  split
  · rfl
  · split
    · exact counted_count_of_ne Counter.noConfusion
    · split
      · exact counted_count_of_ne Counter.noConfusion
      · exact counted_of_workers rfl rfl

theorem growFrees_drainScope (h : Heap) (k : Nat) :
    (h.drainScope k).2.counted .growFrees = h.counted .growFrees := by
  rcases drainScope_cases h k with ⟨-, heq⟩ | ⟨scope, -, heq | ⟨registry, owner, _, _, heq⟩⟩
  · rw [heq]
  · rw [heq]
    exact counted_of_workers rfl rfl
  · have hforgot : ∀ g : Heap, (g.deregister owner scope.registry).counted .growFrees =
        g.counted .growFrees := fun g => counted_modifyWorker fun _ => rfl
    rw [heq, counted_count_of_ne Counter.noConfusion, counted_count_of_ne Counter.noConfusion,
      hforgot]
    exact freeTracked_preserves (h := h.closing k scope)
      (R := fun g => g.counted .growFrees = h.counted .growFrees)
      (counted_of_workers rfl rfl)
      (fun g x size shape hg => (counted_free_of_ne Counter.noConfusion
        (fun _ => Counter.noConfusion) g _ x size shape).trans hg) _

end Heap

/-- A configuration that was checked frees no large objects eagerly. -/
theorem Config.maxFreeSize_le
    {c : Config}
    (hc : c.check = .ok ()) :
    c.maxFreeSize ≤ SizeClass.greatest := by
  refine Nat.le_of_not_lt fun hlarge => ?_
  unfold check at hc
  simp only [hlarge, if_true] at hc
  repeat' split at hc
  all_goals cases hc

namespace Machine

open Heap

variable {m : Machine} {y : Move} {ys : List Move} {id x n size : Nat} {k d : Cell} {g : Heap}
  {memory : Nat} {c : Config} {sh : Shape}

/-- Nothing but counting them changes the number of eager frees of growths. -/
theorem growFrees_apply
    (hids : (m.heap.workers.map Worker.id).Nodup)
    (hy : ∀ id n, y ≠ .count id .growFrees n) :
    (m.apply y).heap.counted .growFrees = m.heap.counted .growFrees := by
  cases y with
  | count id c n =>
      refine counted_count_of_ne fun hc => ?_
      subst hc
      exact hy id n rfl
  | addWorker => exact counted_addWorker m.heap .growFrees
  | flushWorker id =>
      have hflush := counted_flushWorker hids id .growFrees
      rwa [if_neg Counter.noConfusion, Nat.add_zero] at hflush
  | retireWorker id =>
      exact apply_retireWorker (R := fun g => g.counted .growFrees = m.heap.counted .growFrees) rfl
        fun g hr => counted_retireWorker hids hr .growFrees
  | reuse id s => exact counted_reuse_of_ne Counter.noConfusion m.heap id s
  | claim id s => exact counted_claim_of_ne Counter.noConfusion m.heap id s
  | free id x size shape =>
      exact counted_free_of_ne Counter.noConfusion (fun _ => Counter.noConfusion) m.heap id x size shape
  | drainScope i => exact growFrees_drainScope m.heap i
  | recordTracked i x t => exact growFrees_recordTracked m.heap i x t
  | setCursor id s block => exact counted_setCursor m.heap id s _ .growFrees
  | dropRegistry r => exact counted_dropRegistry m.heap r .growFrees
  | enterScope id r => exact counted_enterScope m.heap id r .growFrees
  | zeroSlots => exact counted_invalidateSlots m.heap .growFrees
  | makeRegistry | leakScope | begin | terminate | enterSweep | finish =>
      exact counted_of_workers rfl rfl
  | _ => exact counted_of_clients (clients_apply id)

/-! ### The worker of a buffer -/

/-- The worker lives, and growths have freed so many objects eagerly. -/
structure Tends (m : Machine) (id : Nat) (c : Config) (n : Nat) : Prop where
  proper : m.Proper
  staffed : m.heap.Staffed id
  config : m.heap.config = c
  frees : m.heap.counted .growFrees = n

theorem Tends.apply
    (ht : m.Tends id c n)
    (hy : m.Allows y)
    (hstays : y ≠ .retireWorker id)
    (hcount : ∀ w i, y ≠ .count w .growFrees i) :
    (m.apply y).Tends id c n where
  proper := ht.proper.apply hy
  staffed := ht.proper.staffed ht.staffed hy hstays
  config := (ht.proper.steps hy).config.trans ht.config
  frees := (growFrees_apply ht.staffed.shelved.ids hcount).trans ht.frees

/-- The moves of a growth count no eager free. -/
theorem Tends.attains
    (ht : m.Tends id c n)
    (hg : m.Attains g) :
    ({ m with heap := g } : Machine).Tends id c n := by
  obtain ⟨zs, hrun, hl⟩ := hg
  rw [← hrun]
  refine hl.preserves (R := fun m' => m'.Tends id c n) ht
    fun m' y ht' hy hgrowth => ht'.apply hy ?_ fun w i => ?_
  · rintro rfl
    exact hgrowth
  · rintro rfl
    exact hgrowth rfl

theorem Tends.count
    (ht : m.Tends id c n) :
    ({ m with heap := m.heap.count id .growFrees 1 } : Machine).Tends id c (n + 1) where
  proper := ht.proper.apply (y := .count id .growFrees 1) trivial
  staffed := ht.staffed.count id .growFrees 1
  config := ht.config
  frees := by
    rw [counted_count ht.staffed.shelved.ids (List.mem_map.2 ht.staffed.lives), if_pos rfl, ht.frees]

/-! ### The object of a buffer -/

/-- No record is attached to an object that had none, unless the move attaches it. -/
theorem Proper.bare
    (hm : m.Proper)
    (hy : m.Allows y)
    (hx : m.heap.arena.Object x k)
    (hbare : k.header.hasFlag Header.sideRecord = false)
    (hattach : ∀ kind, y ≠ .attach x kind)
    (hx' : (m.apply y).heap.arena.Object x d) :
    d.header.hasFlag Header.sideRecord = false := by
  have hnone : (m.apply y).heap.records.attached.find? x = none := by
    refine find?_eq_none_of_attached (hm.apply hy).sound fun r hr => ?_
    rcases hm.attached_of hy hr with hbefore | ⟨rfl, -⟩
    · rw [Bool.eq_false_iff, ne_eq, hm.sound.recorded.flagged x k hx.1] at hbare
      rw [SideRecords.Attached, Option.not_isSome_iff_eq_none.1 hbare] at hbefore
      cases hbefore
    · exact hattach r.kind rfl
  rw [Bool.eq_false_iff, ne_eq, (hm.apply hy).sound.recorded.flagged x d hx'.1, hnone]
  exact Bool.false_ne_true

/-! ### Appending elements -/

/-- The move leaves the buffer to its owner: it neither frees its object nor attaches a record to it, the
worker of the owner stays, nothing is swept, and no eager free of another growth is counted. -/
def LeavesBuffer (m : Machine) (id x : Nat) (y : Move) : Prop :=
  ¬ m.Parks y x ∧ (∀ kind, y ≠ .attach x kind) ∧ y ≠ .retireWorker id ∧ (∀ n, y ≠ .sweepStep n) ∧
    ∀ w n, y ≠ .count w .growFrees n

/-- The growth of a buffer for its next element, with the heap and the buffer that it leaves. -/
def growth (m : Machine) (b : Buffer) (g : Heap) (a next : Nat) : BufferGrowth :=
  ⟨m.heap, g, b, ⟨a, next, b.length + 1⟩⟩

@[simp] theorem growth_before (m : Machine) (b : Buffer) (g : Heap) (a next : Nat) :
    (m.growth b g a next).before = m.heap := rfl

@[simp] theorem growth_old (m : Machine) (b : Buffer) (g : Heap) (a next : Nat) :
    (m.growth b g a next).old = b := rfl

/-- Elements are appended one after the other to a new buffer, which grows whenever there is no room for
the next one. Between that other moves take place. The growths are listed in their order. -/
inductive Appends {σ : Type} (hooks : Hooks σ) (id elementSize : Nat) (sh : Shape) (m₀ : Machine) :
    List BufferGrowth → Machine → Buffer → Prop
  | start : Appends hooks id elementSize sh m₀ [] m₀ {}
  /-- There is room for the next element. -/
  | room {gs : List BufferGrowth} {m : Machine} {b : Buffer}
      (ha : Appends hooks id elementSize sh m₀ gs m b) (hroom : b.length < b.capacity) :
      Appends hooks id elementSize sh m₀ gs m { b with length := b.length + 1 }
  /-- The buffer grows for the next element. -/
  | grow {gs : List BufferGrowth} {m : Machine} {b : Buffer} {client : σ} {w : World σ} {a next : Nat}
      (ha : Appends hooks id elementSize sh m₀ gs m b) (hfull : b.capacity ≤ b.length)
      (hrun : ExceptT.run (Action.growUnaliased hooks id b.addr b.capacity (b.length + 1) elementSize
        sh 1) ⟨m.heap, client⟩ = (.ok (a, next), w)) :
      Appends hooks id elementSize sh m₀ (gs ++ [m.growth b w.heap a next])
        { m with heap := w.heap } ⟨a, next, b.length + 1⟩
  /-- Another move takes place. -/
  | between {gs : List BufferGrowth} {m : Machine} {b : Buffer} {y : Move}
      (ha : Appends hooks id elementSize sh m₀ gs m b) (hy : m.Allows y)
      (hleaves : m.LeavesBuffer id b.addr y) : Appends hooks id elementSize sh m₀ gs (m.apply y) b

/-! ### What the growths free -/

variable {σ : Type} {hooks : Hooks σ} {elementSize a next : Nat} {m₀ : Machine}
  {gs : List BufferGrowth} {b : Buffer} {client : σ} {w : World σ} {h : Heap}

/-- A growth that gives a result hands the buffer over, and counts if it has freed the old object. -/
theorem Tends.grows
    (ht : m.Tends id c n)
    (hk : hooks.Silent)
    (hpos : 0 < elementSize)
    (hold : b.addr = 0 ∨ ∃ d, m.heap.arena.Object b.addr d ∧ d.Serves (b.capacity * elementSize) sh)
    (hrun : ExceptT.run (Action.growUnaliased hooks id b.addr b.capacity (b.length + 1) elementSize
      sh 1) ⟨m.heap, client⟩ = (.ok (a, next), w)) :
    m.heap.Grown id b.addr (b.capacity * elementSize)
        (keptBytes b.capacity (b.length + 1) 1 elementSize) a (next * elementSize) sh w.heap ∧
      ({ m with heap := w.heap } : Machine).Tends id c
        (if (m.heap.free id b.addr (b.capacity * elementSize) (some sh)).1 = none then n + 1
          else n) := by
  obtain ⟨r, g, hends, hgrow⟩ := Action.ends_growUnaliased hk ht.staffed hpos
    (Nat.succ_pos b.length) b.addr b.capacity sh
  obtain ⟨v, hrun', rfl⟩ := hends ⟨m.heap, client⟩ rfl
  obtain ⟨rfl, rfl⟩ := Prod.mk.inj (hrun.symm.trans hrun')
  refine ⟨(hgrow.spec ht.proper.sound (hold.imp_right ?_) rfl).2, ?_⟩
  · exact fun ⟨d, hobj, hserves⟩ => ⟨d, hobj, hserves.room⟩
  · obtain ⟨f, hf, ⟨hfree, heq⟩ | ⟨hfree, heq⟩⟩ := Growing.attains hgrow ht.staffed
      (hold.imp_right fun ⟨d, hobj, _⟩ => ⟨d, hobj⟩) rfl
    · rw [if_pos hfree, heq]
      exact (ht.attains hf).count
    · rw [if_neg hfree, heq]
      exact ht.attains hf

/-- The object of a buffer is accepted by an eager free if the bytes of the capacity are within the
limits. -/
theorem Tends.accepts
    (ht : m.Tends id c n)
    (hon : c.eagerFree = true)
    (hgreatest : c.maxFreeSize ≤ SizeClass.greatest)
    (hobj : m.heap.arena.Object x k)
    (hserves : k.Serves size sh)
    (hmin : c.minFreeSize ≤ size)
    (hmax : size ≤ c.maxFreeSize) :
    (m.heap.free id x size (some sh)).1 = none := by
  rw [free_eq_none_iff ht.proper.sound.layout hobj.1, ht.config]
  exact {
    enabled := hon
    least := hmin
    greatest := hmax
    small := hserves.small (hmax.trans hgreatest)
    fits := hserves.room
    shape := hserves.shape
    bare := hserves.bare
    state := hobj.2 }

/-- What the machine, the growths and the buffer are like while elements are appended. -/
structure Appended (m : Machine) (id elementSize : Nat) (sh : Shape) (c : Config) (n : Nat)
    (gs : List BufferGrowth) (b : Buffer) : Prop where
  /-- Every growth but the first one has counted an eager free. -/
  tends : m.Tends id c (n + (gs.length - 1))
  /-- The buffer has an object as soon as it has grown. -/
  object : gs = [] ∧ b.addr = 0 ∨
    gs ≠ [] ∧ ∃ d, m.heap.arena.Object b.addr d ∧ d.Serves (b.capacity * elementSize) sh
  /-- Every growth but the first one has freed an object. -/
  frees : ∀ g ∈ gs.tail, g.Frees
  /-- Each growth replaces what the one before it has made. -/
  chain : gs.map (·.old.incarnation) ++ [b.incarnation] = (0, 0) :: gs.map (·.new.incarnation)

/-- A growth for the next element. -/
theorem Appended.grow
    (ha : m.Appended id elementSize sh c n gs b)
    (hk : hooks.Silent)
    (hpos : 0 < elementSize)
    (hon : c.eagerFree = true)
    (hgreatest : c.maxFreeSize ≤ SizeClass.greatest)
    (hlimits : gs ≠ [] → c.minFreeSize ≤ b.capacity * elementSize ∧
      b.capacity * elementSize ≤ c.maxFreeSize)
    (hrun : ExceptT.run (Action.growUnaliased hooks id b.addr b.capacity (b.length + 1) elementSize
      sh 1) ⟨m.heap, client⟩ = (.ok (a, next), w)) :
    ({ m with heap := w.heap } : Machine).Appended id elementSize sh c n
      (gs ++ [m.growth b w.heap a next]) ⟨a, next, b.length + 1⟩ := by
  obtain ⟨hgrown, htends⟩ := ha.tends.grows hk hpos (ha.object.imp And.right And.right) hrun
  have hchain : (gs ++ [m.growth b w.heap a next]).map (·.old.incarnation) ++ [(a, next)] =
      (0, 0) :: (gs ++ [m.growth b w.heap a next]).map (·.new.incarnation) := by
    rw [List.map_append, List.map_append, ← List.cons_append, ← ha.chain]
    rfl
  rcases ha.object with ⟨rfl, h0⟩ | ⟨hne, d, hobj, hserves⟩
  · -- The first growth finds nothing to free.
    rw [h0, if_neg (free_zero_ne_none m.heap id _ _)] at htends
    exact ⟨htends, Or.inr ⟨by simp, hgrown.object⟩, List.forall_mem_nil _, hchain⟩
  · obtain ⟨hmin, hmax⟩ := hlimits hne
    have haccept := ha.tends.accepts hon hgreatest hobj hserves hmin hmax
    rw [if_pos haccept] at htends
    have hlength : n + (gs.length - 1) + 1 =
        n + ((gs ++ [m.growth b w.heap a next]).length - 1) := by
      have hpos := List.length_pos_of_ne_nil hne
      simp only [List.length_append, List.length_singleton]
      omega
    refine ⟨hlength ▸ htends, Or.inr ⟨by simp, hgrown.object⟩, ?_, hchain⟩
    rw [List.tail_append_of_ne_nil hne]
    intro g hg
    rcases List.mem_append.1 hg with hg | hg
    · exact ha.frees g hg
    · obtain rfl := List.mem_singleton.1 hg
      exact ⟨d, hobj, hgrown.freed d hobj haccept⟩

/-- A move of others. -/
theorem Appended.between
    (ha : m.Appended id elementSize sh c n gs b)
    (hy : m.Allows y)
    (hleaves : m.LeavesBuffer id b.addr y) :
    (m.apply y).Appended id elementSize sh c n gs b := by
  obtain ⟨hparks, hattach, hretire, hsweep, hcount⟩ := hleaves
  refine ⟨ha.tends.apply hy hretire hcount, ha.object.imp_right ?_, ha.frees, ha.chain⟩
  rintro ⟨hne, d, hobj, hserves⟩
  have hreclaim : ¬ y.Does (.reclaim b.addr) := (not_does_cleanup (fun i e => hsweep i e) b.addr).2
  obtain ⟨hd, hobj'⟩ := (ha.tends.proper.stays hy hobj hreclaim).resolve_right hparks
  exact ⟨hne, _, hobj', hserves.room, hserves.shape, hserves.small,
    ha.tends.proper.bare hy hobj hserves.bare hattach hobj'⟩

theorem Appends.appended
    (happ : Appends hooks id elementSize sh m₀ gs m b)
    (hk : hooks.Silent)
    (hpos : 0 < elementSize)
    (hon : c.eagerFree = true)
    (hgreatest : c.maxFreeSize ≤ SizeClass.greatest)
    (ht : m₀.Tends id c n)
    (hlimits : ∀ g ∈ gs.tail, c.minFreeSize ≤ g.old.capacity * elementSize ∧
      g.old.capacity * elementSize ≤ c.maxFreeSize) :
    m.Appended id elementSize sh c n gs b := by
  induction happ with
  | start => exact ⟨ht, Or.inl ⟨rfl, rfl⟩, List.forall_mem_nil _, rfl⟩
  | room ha hroom ih =>
      obtain ⟨htends, hobject, hfrees, hchain⟩ := ih hlimits
      exact ⟨htends, hobject, hfrees, hchain⟩
  | @grow gs m b client w a next ha hfull hrun ih =>
      have htail : ∀ f ∈ gs.tail, f ∈ (gs ++ [m.growth b w.heap a next]).tail := by
        cases gs with
        | nil => exact List.forall_mem_nil _
        | cons f fs => exact fun f hf => List.mem_append_left _ hf
      refine (ih fun f hf => hlimits f (htail f hf)).grow hk hpos hon hgreatest (fun hne => ?_) hrun
      refine hlimits (m.growth b w.heap a next) ?_
      rw [List.tail_append_of_ne_nil hne]
      exact List.mem_append_right _ (List.mem_singleton_self _)
  | between ha hy hleaves ih => exact (ih hlimits).between hy hleaves

/-- If the bytes of every capacity that is given up are within the limits of eager free, every growth
but the first one frees the object that it replaces, and the last object is allocated. -/
theorem growths_free_replaced
    {ys : List Move}
    (hk : hooks.Silent)
    (hc : Heap.create memory c = .ok h)
    (hl : Legal (fun _ _ => True) (start h) ys)
    (hid : ∃ w ∈ ((start h).run ys).heap.workers, w.id = id)
    (hpos : 0 < elementSize)
    (hon : c.eagerFree = true)
    (happ : Appends hooks id elementSize sh ((start h).run ys) gs m b)
    (hlimits : ∀ g ∈ gs.tail, c.minFreeSize ≤ g.old.capacity * elementSize ∧
      g.old.capacity * elementSize ≤ c.maxFreeSize) :
    m.heap.counted .growFrees = ((start h).run ys).heap.counted .growFrees + (gs.length - 1) ∧
      (∀ g ∈ gs.tail, g.Frees) ∧
      gs.map (·.old.incarnation) ++ [b.incarnation] = (0, 0) :: gs.map (·.new.incarnation) ∧
      (gs ≠ [] → m.heap.arena.isAllocated b.addr = true) := by
  obtain ⟨hcheck, hempty⟩ := create_eq_ok hc
  have hproper := proper_start hc
  have hconfig : ((start h).run ys).heap.config = c := by
    rw [hl.config hproper, hempty]
    rfl
  have hall := happ.appended hk hpos hon (Config.maxFreeSize_le hcheck)
    ⟨hl.proper hproper, hl.staffed hc hid, hconfig, rfl⟩ hlimits
  refine ⟨hall.tends.frees, hall.frees, hall.chain, fun hne => ?_⟩
  obtain ⟨d, hobj, -⟩ := (hall.object.resolve_left fun hnone => hne hnone.1).2
  exact hobj.isAllocated

/-- The growth of a buffer for its next element, with nothing else going on. -/
def growNext (m : Machine) (b : Buffer) (elementSize : Nat) (sh : Shape) :
    Except Failure (Nat × Nat) × World Unit :=
  ExceptT.run (Action.growUnaliased idleClient 0 b.addr b.capacity (b.length + 1) elementSize sh 1)
    ⟨m.heap, ()⟩

/-- The machine after the growth of a buffer, whatever has come of it. -/
def afterGrowth (m : Machine) (b : Buffer) (elementSize : Nat) (sh : Shape) : Machine :=
  { m with heap := (m.growNext b elementSize sh).2.heap }

theorem Appends.growNext
    (ha : Appends idleClient 0 elementSize sh m₀ gs m b)
    (hfull : b.capacity ≤ b.length)
    (hres : (m.growNext b elementSize sh).1 = .ok (a, next)) :
    Appends idleClient 0 elementSize sh m₀
      (gs ++ [m.growth b (m.afterGrowth b elementSize sh).heap a next])
      (m.afterGrowth b elementSize sh) ⟨a, next, b.length + 1⟩ :=
  ha.grow hfull (Prod.ext hres rfl)

/-- The machine after a worker was added to an empty heap. -/
def oneWorker : Machine := (start (.empty fourBlocks)).run [.addWorker]

/-- Four elements of 2048 bytes need three growths, of which two free an object. -/
theorem growths_free_replaced_thrice :
    ∃ gs m b, Appends idleClient 0 2048 .scan oneWorker gs m b ∧ gs.length = 3 ∧ b.length = 4 ∧
      gs.map (·.old.incarnation) ++ [b.incarnation] = (0, 0) :: gs.map (·.new.incarnation) ∧
      gs.map (·.new.capacity) = [1, 2, 4] ∧
      m.heap.counted .growFrees = oneWorker.heap.counted .growFrees + 2 ∧
      (∀ g ∈ gs.tail, g.Frees) ∧ m.heap.arena.isAllocated b.addr = true := by
  have hlegal : Legal (fun _ _ => True) (start (.empty fourBlocks)) [.addWorker] := by
    decide +kernel
  have hid : ∃ w ∈ ((start (.empty fourBlocks)).run [.addWorker]).heap.workers, w.id = 0 := by
    decide +kernel
  have h₁ : (oneWorker.growNext {} 2048 .scan).1 = .ok (Arena.start, 1) := by decide +kernel
  have happ₁ := Appends.start.growNext (Nat.le_refl 0) h₁
  have h₂ : ((oneWorker.afterGrowth {} 2048 .scan).growNext ⟨Arena.start, 1, 1⟩ 2048 .scan).1 =
      .ok (Arena.start + blockSize, 2) := by
    decide +kernel
  have happ₂ := happ₁.growNext (Nat.le_refl 1) h₂
  have h₃ : (((oneWorker.afterGrowth {} 2048 .scan).afterGrowth ⟨Arena.start, 1, 1⟩ 2048
      .scan).growNext ⟨Arena.start + blockSize, 2, 2⟩ 2048 .scan).1 =
      .ok (Arena.start + 2 * blockSize, 4) := by
    decide +kernel
  have happ := (happ₂.growNext (Nat.le_refl 2) h₃).room (by decide)
  obtain ⟨hfrees, hall, hchain, hlast⟩ := growths_free_replaced silent_idleClient
    create_fourBlocks hlegal hid (by decide) rfl happ
    (by decide)
  exact ⟨_, _, _, happ, rfl, rfl, hchain, rfl, hfrees, hall, hlast (by simp)⟩

/-- It does not suffice that the objects that are given up are within the limits: five elements of three
bytes leave a byte of an object of sixteen bytes unused, and such a buffer is too small to be freed. -/
theorem growths_free_replaced_unused :
    ∃ gs m b, Appends idleClient 0 3 .noScan oneWorker gs m b ∧ gs.length = 2 ∧
      fourBlocks.eagerFree = true ∧
      (∀ g ∈ gs.tail, ∃ d, g.before.arena.Object g.old.addr d ∧
        d.header.hasFlag Header.sideRecord = false ∧
        fourBlocks.minFreeSize ≤ d.size ∧ d.size ≤ fourBlocks.maxFreeSize) ∧
      ¬ (m.heap.counted .growFrees = oneWorker.heap.counted .growFrees + (gs.length - 1) ∧
        ∀ g ∈ gs.tail, g.Frees) := by
  have h₁ : (oneWorker.growNext {} 3 .noScan).1 = .ok (Arena.start, 5) := by decide +kernel
  have happ := (((((Appends.start.growNext (Nat.le_refl 0) h₁).room (by decide)).room
    (by decide)).room (by decide)).room (by decide))
  have h₂ : ((oneWorker.afterGrowth {} 3 .noScan).growNext ⟨Arena.start, 5, 5⟩ 3 .noScan).1 =
      .ok (Arena.start + blockSize, 10) := by
    decide +kernel
  have hobj : ∃ d, (oneWorker.afterGrowth {} 3 .noScan).heap.arena.cell? Arena.start = some d ∧
      d.header.state = .allocated ∧ d.header.hasFlag Header.sideRecord = false ∧
      fourBlocks.minFreeSize ≤ d.size ∧ d.size ≤ fourBlocks.maxFreeSize := by
    decide +kernel
  obtain ⟨d, hcell, hst, hbare, hmin, hmax⟩ := hobj
  refine ⟨_, _, _, happ.growNext (Nat.le_refl 5) h₂, rfl, rfl, ?_, ?_⟩
  · intro g hg
    obtain rfl := List.mem_singleton.1 hg
    rw [growth_before, growth_old]
    exact ⟨d, ⟨hcell, hst⟩, hbare, hmin, hmax⟩
  · rintro ⟨hcount, -⟩
    have hnone : ((oneWorker.afterGrowth {} 3 .noScan).afterGrowth ⟨Arena.start, 5, 5⟩ 3
        .noScan).heap.counted .growFrees = oneWorker.heap.counted .growFrees := by
      decide +kernel
    exact absurd (hnone.symm.trans hcount) (by decide)

end Machine

end EagerHeap
