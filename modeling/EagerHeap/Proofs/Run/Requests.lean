import EagerHeap.Proofs.Growth
import EagerHeap.Proofs.Heap.Shelf
import EagerHeap.Proofs.Run.Capacities
import EagerHeap.Proofs.Run.Staffed
/-!
# Requests for bytes

In every state of a run a request for bytes gives an object of the size that is reserved for them, or it
is refused and all cells, runs, words and free lists stay as they are. It is refused for want of room,
apart from requests that end in the last block of the machine words: no size can be reserved for those,
and the report of the refusal fails in its multiplication.

Main result: `request_answered`.
-/

namespace EagerHeap

/-- The failure of a request for bytes that is refused. -/
def Failure.refusing (size : Nat) : Failure :=
  match SizeClass.forSize? size with
  | some _ => .outOfMemory blockSize
  | none =>
    match Word.mul (blocksFor size) blockSize with
    | .ok bytes => .outOfMemory (if Config.greatestArena < bytes then Word.bytes else bytes)
    | .error e => .overflow e

variable {size bytes : Nat}

/-- A request for which space can be reserved is refused for want of room. -/
theorem Failure.refusing_of_ok
    (hr : reservedSize size = .ok bytes) :
    ∃ n, refusing size = .outOfMemory n := by
  rw [reservedSize] at hr
  rw [refusing]
  cases hk : SizeClass.forSize? size with
  | some c => exact ⟨_, rfl⟩
  | none =>
      rw [hk] at hr
      dsimp only at hr ⊢
      rw [hr]
      exact ⟨_, rfl⟩

/-- The report of a refusal multiplies as the reservation does. -/
theorem Failure.refusing_of_error
    {e : Overflow}
    (hr : reservedSize size = .error e) :
    e = .product ∧ refusing size = .overflow .product := by
  rw [reservedSize] at hr
  rw [refusing]
  cases hk : SizeClass.forSize? size with
  | some c =>
      rw [hk] at hr
      cases hr
  | none =>
      rw [hk] at hr
      dsimp only at hr ⊢
      rw [hr]
      rw [Word.mul] at hr
      split at hr <;> cases hr
      exact ⟨rfl, rfl⟩

theorem Hooks.Silent.stepwise
    {σ : Type} {k : Hooks σ}
    (hk : k.Silent) :
    k.Stepwise := by
  intro e w _
  rw [hk.event]
  exact Heap.Steps.refl w.heap

namespace Heap

variable {h g f : Heap} {id : Nat} {s : Span} {sh : Shape} {r : Except Failure Nat} {o : Failure}

/-- The second heap has the cells, runs, words, side records and free lists of the first one. -/
structure Intact (h g : Heap) : Prop where
  pages : g.arena.pages = h.arena.pages
  headers : ∀ b k, g.arena.header? b k = h.arena.header? b k
  cells : ∀ x, g.arena.cell? x = h.arena.cell? x
  memory : g.arena.memory = h.arena.memory
  records : g.records = h.records
  shelves : ∀ id s, g.shelf id s = h.shelf id s

theorem Intact.refl (h : Heap) : h.Intact h :=
  ⟨rfl, fun _ _ => rfl, fun _ => rfl, rfl, rfl, fun _ _ => rfl⟩

theorem Intact.trans
    (hg : h.Intact g)
    (hf : g.Intact f) :
    h.Intact f where
  pages := hf.pages.trans hg.pages
  headers b k := (hf.headers b k).trans (hg.headers b k)
  cells x := (hf.cells x).trans (hg.cells x)
  memory := hf.memory.trans hg.memory
  records := hf.records.trans hg.records
  shelves id s := (hf.shelves id s).trans (hg.shelves id s)

theorem Still.intact
    (hst : Still h g)
    (hshelves : ∀ id s, g.shelf id s = h.shelf id s) :
    h.Intact g where
  pages := hst.outline.pages
  headers := hst.headers
  cells x := by
    have hmap := hst.outline.cell?_eq_map (fun _ _ hd => hd)
      (fun b k => by rw [hst.headers, Option.map_id']) x
    rwa [Option.map_id'] at hmap
  memory := hst.memory
  records := hst.records
  shelves := hshelves

theorem intact_count (h : Heap) (id : Nat) (c : Counter) (n : Nat) : h.Intact (h.count id c n) :=
  (still_count h id c n).intact fun _ _ => shelf_count ..

theorem intact_moved
    {b : Nat}
    (hs : h.Sound)
    (hb : h.takePartial s = (some b, g))
    (id : Nat) :
    h.Intact (g.setCursor id s ⟨b, 0⟩) := by
  refine (still_moved hs hb id).intact fun other t => ?_
  have hclients := clients_takePartial h s
  rw [hb] at hclients
  exact (shelf_setCursor ..).trans (shelf_of_clients hclients)

/-- A search that fails moves the cursor only. -/
theorem Claiming.intact
    (hc : Claiming id s h r g)
    (hs : h.Sound)
    (hr : r = .error o) :
    o = .outOfMemory blockSize ∧ h.Intact g := by
  induction hc with
  | claimed | carved => cases hr
  | @moved h g h' b r hnone hb _ ih =>
      obtain ⟨ho, hrest⟩ := ih ((steps_moved hs hb id).sound hs) hr
      exact ⟨ho, (intact_moved hs hb id).trans hrest⟩
  | exhausted =>
      cases hr
      exact ⟨rfl, Intact.refl _⟩

/-- A run of blocks that is handed out fits into the arena. -/
theorem le_limit_of_carveRun
    {n x : Nat}
    (hs : h.Sound)
    (hn : 0 < n)
    (hr : (carveRun n sh).run h = (.ok (some x), g)) :
    n ≤ h.arena.pages.limit := by
  rw [carveRun_run] at hr
  rcases hc : h.arena.carveRun n with ⟨_ | i, a'⟩
  · rw [hc] at hr
    cases hr
  · have ht := hs.layout.runTaken hn hc
    obtain ⟨⟨hd, sh', hlast, -⟩, -⟩ := ht.taken (i + (n - 1)) (by omega) (by omega)
    have hlt := (Array.getElem?_eq_some_iff.1 hlast).1
    have := ht.carved
    have := ht.inside
    have := ht.limit
    omega

/-- Space can be reserved for the objects for which there is room. -/
theorem Obtaining.exists_reservedSize
    {x : Nat}
    (ho : Obtaining id size sh h (.ok x) g)
    (hs : h.Sound)
    (hlimit : h.arena.pages.limit ≤ Config.greatestArena / blockSize) :
    ∃ bytes, reservedSize size = .ok bytes := by
  cases ho with
  | reused hk | searched hk =>
      rw [reservedSize, hk]
      exact ⟨_, rfl⟩
  | carved hk hcarve =>
      have hle := le_limit_of_carveRun ((still_count h id .slowAllocations 1).steps.sound hs)
        (blocksFor_pos size) hcarve
      have hgreatest : Config.greatestArena / blockSize ≤ (Word.bound - blockSize) / blockSize := by
        decide
      have hblocks := (hle.trans hlimit).trans hgreatest
      refine exists_reservedSize_iff.2 ?_
      simp only [blocksFor, blockSize, Word.bound] at hblocks ⊢
      omega

end Heap

namespace Action

variable {σ α : Type} {k : Hooks σ} {h : Heap} {id size : Nat} {sh : Shape}

theorem fails_exhausted
    (hk : k.Silent)
    (bytes : Nat) (h : Heap) :
    Ends (exhausted k bytes : Action σ α) h
      (.error (.outOfMemory (if Config.greatestArena < bytes then Word.bytes else bytes))) h :=
  (gives_view _ h).before ((gives_emit hk _ h).before (ends_throw _ h))

/-- A request for a large object that is refused changes nothing but the count of slow allocations. -/
theorem fails_allocateLarge
    (hk : k.Silent)
    (hsize : SizeClass.forSize? size = none)
    (hnone : ((Heap.carveRun (blocksFor (max size 1)) sh).run h).1 = .ok none)
    (hsame : ((Heap.carveRun (blocksFor (max size 1)) sh).run h).2 = h) :
    Ends (allocateLarge k size sh) h (.error (.refusing size)) h := by
  have hpos : max size 1 = size := by
    refine Nat.max_eq_left (Nat.pos_of_ne_zero ?_)
    rintro rfl
    cases hsize
  have hgives := gives_update (σ := σ) hnone
  rw [hsame] at hgives
  rw [allocateLarge]
  refine hgives.before ?_
  dsimp only
  rw [Failure.refusing, hsize, hpos]
  cases hmul : Word.mul (blocksFor size) blockSize with
  | error e =>
      refine Ends.fails ?_
      rintro w rfl
      exact ⟨w, rfl, rfl⟩
  | ok bytes =>
      have hchecked : Gives (checked (.ok bytes) : Action σ Nat) h bytes h := by
        rintro w rfl
        exact ⟨w, rfl, rfl⟩
      exact hchecked.before (fails_exhausted hk bytes h)

/-- A request of a worker that lives obtains an object, or it is refused and leaves the heap intact. -/
theorem request_cases
    (hk : k.Silent)
    (hr : h.Staffed id)
    (size : Nat) (sh : Shape) :
    (∃ x g, Ends (allocateBytes k id size sh) h (.ok x) g ∧ Heap.Obtaining id size sh h (.ok x) g) ∨
      ∃ g, Ends (allocateBytes k id size sh) h (.error (.refusing size)) g ∧ h.Intact g := by
  rw [allocateBytes]
  cases hsize : SizeClass.forSize? size with
  | some c =>
      have hends := (follows_allocate hk id ⟨c, sh⟩).ends h
      rcases hr.allocate_cases ⟨c, sh⟩ with ⟨x, hreuse, hok⟩ | ⟨-, hc⟩
      · rw [hok] at hends
        exact Or.inl ⟨x, _, hends, .reused hsize hreuse⟩
      · cases hres : ((Heap.allocateAlone id ⟨c, sh⟩).run h).1 with
        | ok x =>
            rw [hres] at hends hc
            exact Or.inl ⟨x, _, hends, .searched hsize hc⟩
        | error o =>
            obtain ⟨rfl, hintact⟩ := hc.intact hr.sound hres
            rw [hres] at hends
            refine Or.inr ⟨_, ?_, hintact⟩
            rw [Failure.refusing, hsize]
            exact hends
  | none =>
      have hcounted := (Heap.still_count h id .slowAllocations 1).steps.sound hr.sound
      have hcount := gives_adjust (σ := σ) (·.count id .slowAllocations 1) h
      rcases Heap.carveRun_cases hcounted (blocksFor_pos size) sh with ⟨x, hx, -⟩ | ⟨hnone, hsame⟩
      · exact Or.inl ⟨x, _, hcount.before ((gives_update hx).before (gives_pure x _).ends),
          .carved hsize (Prod.ext hx rfl)⟩
      · exact Or.inr ⟨_, hcount.before (fails_allocateLarge hk hsize hnone hsame),
          Heap.intact_count h id .slowAllocations 1⟩

end Action

namespace Machine

open Heap

variable {ys : List Move} {id : Nat} {memory : Nat} {c : Config} {h : Heap}

/-- The arena has no more blocks than can be asked for. -/
theorem limit_le_of_legal
    {P : Machine → Move → Prop}
    (hc : Heap.create memory c = .ok h)
    (hl : Legal P (start h) ys) :
    ((start h).run ys).heap.arena.pages.limit ≤ Config.greatestArena / blockSize := by
  have hsize : c.arenaSize ≤ Config.greatestArena := arenaSize_le_of_create hc
  obtain ⟨-, rfl⟩ := create_eq_ok hc
  refine (hl.preserves
    (R := fun m => m.Proper ∧ m.heap.arena.pages.limit ≤ Config.greatestArena / blockSize)
    ⟨proper_start hc, Nat.div_le_div_right hsize⟩ fun m y ⟨hm, hle⟩ hy _ => ⟨hm.apply hy, ?_⟩).2
  rw [(hm.steps hy).limit hm.sound]
  exact hle

/-- A request for bytes gives an object of exactly the reserved size, where no object was, or it is refused
for want of room and leaves the heap intact. Space can be reserved for all sizes but those of the last block of the
machine words; a request for one of these fails in a multiplication, and leaves the heap intact as well. -/
theorem request_answered
    {σ : Type} {hooks : Hooks σ}
    (hk : hooks.Silent)
    (hc : Heap.create memory c = .ok h)
    (hl : Legal (fun _ _ => True) (start h) ys)
    (hid : ∃ w ∈ ((start h).run ys).heap.workers, w.id = id)
    (size : Nat) (sh : Shape) (client : σ) :
    let before := ((start h).run ys).heap
    let made := ExceptT.run (Action.allocateBytes hooks id size sh) ⟨before, client⟩
    ((∃ bytes, reservedSize size = .ok bytes) ↔ size ≤ Word.bound - blockSize) ∧
      (∀ bytes, reservedSize size = .ok bytes →
        size ≤ bytes ∧ bytes < Word.bound ∧ reservedSize bytes = .ok bytes ∧
          (∀ more larger, size ≤ larger → reservedSize larger = .ok more → bytes ≤ more) ∧
          ((∃ x, made.1 = .ok x ∧ before.Provides x size sh made.2.heap ∧
              ∃ d, made.2.heap.arena.Object x d ∧ d.size = bytes ∧ d.shape = sh) ∨
            (∃ n, made.1 = .error (.outOfMemory n)) ∧ before.Intact made.2.heap)) ∧
      ∀ e, reservedSize size = .error e →
        made.1 = .error (.overflow .product) ∧ before.Intact made.2.heap := by
  intro before made
  have hr : before.Staffed id := hl.staffed hc hid
  have hs := hr.sound
  refine ⟨exists_reservedSize_iff, fun bytes hbytes => ⟨le_reservedSize hbytes,
    reservedSize_lt hbytes, reservedSize_reserved hbytes,
    fun more larger hle hmore => reservedSize_mono hbytes hmore hle, ?_⟩, fun e he => ?_⟩
  · rcases Action.request_cases hk hr size sh with ⟨x, g, hends, ho⟩ | ⟨g, hends, hintact⟩
    · obtain ⟨w, hrun, rfl⟩ := hends ⟨before, client⟩ rfl
      have hmade : made = (.ok x, w) := hrun
      rw [hmade]
      exact Or.inl ⟨x, rfl, ho.provides hs rfl,
        Action.ensures_allocateBytes hk.stepwise hbytes id sh _ x w hs hrun⟩
    · obtain ⟨w, hrun, rfl⟩ := hends ⟨before, client⟩ rfl
      have hmade : made = (.error (.refusing size), w) := hrun
      rw [hmade]
      obtain ⟨n, hn⟩ := Failure.refusing_of_ok hbytes
      exact Or.inr ⟨⟨n, by rw [hn]⟩, hintact⟩
  · rcases Action.request_cases hk hr size sh with ⟨x, g, -, ho⟩ | ⟨g, hends, hintact⟩
    · obtain ⟨bytes, hbytes⟩ := ho.exists_reservedSize hs (limit_le_of_legal hc hl)
      cases he.symm.trans hbytes
    · obtain ⟨w, hrun, rfl⟩ := hends ⟨before, client⟩ rfl
      have hmade : made = (.error (.refusing size), w) := hrun
      rw [hmade, (Failure.refusing_of_error he).2]
      exact ⟨rfl, hintact⟩

/-- No space can be reserved for the greatest machine word, and a request for as many bytes fails in a
multiplication. -/
theorem request_overflows :
    reservedSize Word.greatest = .error .product ∧
      (ExceptT.run (Action.allocateBytes idleClient 0 Word.greatest .noScan)
        ⟨((start (.empty fourBlocks)).run [.addWorker]).heap, ()⟩).1 = .error (.overflow .product) := by
  decide +kernel

/-- Three blocks are handed out for a request that needs a bit more than two, and then a request for as
much is refused. -/
theorem request_answered_twice :
    let taken := [.addWorker, .carveRun 3 .noScan]
    let first := ExceptT.run (Action.allocateBytes idleClient 0 40000 .noScan)
      ⟨((start (.empty fourBlocks)).run [.addWorker]).heap, ()⟩
    let second := ExceptT.run (Action.allocateBytes idleClient 0 40000 .noScan)
      ⟨((start (.empty fourBlocks)).run taken).heap, ()⟩
    reservedSize 40000 = .ok 49152 ∧
      first.1 = .ok Arena.start ∧
      (∃ d, first.2.heap.arena.Object Arena.start d ∧ d.size = 49152 ∧ d.shape = .noScan) ∧
      second.1 = .error (.outOfMemory 49152) ∧
      ((start (.empty fourBlocks)).run taken).heap.Intact second.2.heap := by
  intro taken first second
  have hlegal : Legal (fun _ _ => True) (start (.empty fourBlocks)) [.addWorker] := by
    decide +kernel
  have hlegal' : Legal (fun _ _ => True) (start (.empty fourBlocks)) taken := by
    decide +kernel
  have hbytes : reservedSize 40000 = .ok 49152 := by decide +kernel
  have hfirst : first.1 = .ok Arena.start := by decide +kernel
  have hsecond : second.1 = .error (.outOfMemory 49152) := by decide +kernel
  refine ⟨hbytes, hfirst, ?_, hsecond, ?_⟩
  · obtain ⟨-, hall, -⟩ := request_answered silent_idleClient create_fourBlocks hlegal
      (show ∃ w ∈ ((start (.empty fourBlocks)).run [.addWorker]).heap.workers, w.id = 0 by
        decide +kernel) 40000 .noScan ()
    rcases (hall 49152 hbytes).2.2.2.2 with ⟨x, hx, -, hobj⟩ | ⟨⟨n, hn⟩, -⟩
    · obtain rfl := Except.ok.inj (hfirst.symm.trans hx)
      exact hobj
    · cases hfirst.symm.trans hn
  · obtain ⟨-, hall, -⟩ := request_answered silent_idleClient create_fourBlocks hlegal'
      (show ∃ w ∈ ((start (.empty fourBlocks)).run taken).heap.workers, w.id = 0 by
        decide +kernel) 40000 .noScan ()
    rcases (hall 49152 hbytes).2.2.2.2 with ⟨x, hx, -⟩ | ⟨-, hintact⟩
    · cases hsecond.symm.trans hx
    · exact hintact

end Machine

end EagerHeap
