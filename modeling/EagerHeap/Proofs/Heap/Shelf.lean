import EagerHeap.Proofs.Heap.Balance
/-!
# The free list of a worker for a span

The free list is a stack: eager frees push cells, and reuse pops the latest one. No other operation of a
worker that goes on changes it, and no operation of another worker does.

Main results: `shelf_popFree`, `shelf_park` and `shelf_free`.
-/

namespace EagerHeap

namespace Heap

variable {h h' g : Heap} {id other x : Nat} {s t : Span} {e : FreeEntry} {f : Worker → Worker}
  {w : Worker}

/-- The free list of a worker for a span, the latest entry first. -/
def shelf (h : Heap) (id : Nat) (s : Span) : List FreeEntry :=
  ((h.worker? id).map fun w => w.freeLists.get s).getD []

/-- An object of the span lies at the address. -/
def HoldsAt (h : Heap) (s : Span) (x : Nat) : Prop :=
  ∃ c, h.arena.Object x c ∧ h.arena.HasSpan c.block s

theorem HoldsAt.unique
    (hs : h.HoldsAt s x)
    (ht : h.HoldsAt t x) :
    s = t := by
  obtain ⟨c, hc, hspan⟩ := hs
  obtain ⟨d, hd, hspan'⟩ := ht
  obtain rfl := hc.unique hd
  exact hspan.unique hspan'

/-- The object that is handed out at the address of an entry is one of its span. -/
theorem HandsOut.holdsAt
    (ho : HandsOut h e.addr g)
    (hs : h.Sound)
    (he : e.Fits h.arena s) :
    g.HoldsAt s e.addr := by
  obtain ⟨hspan, hk, haddr⟩ := he
  have hspan' := ho.steps.hasSpan hs hspan
  obtain ⟨hd, -, hcell⟩ := (ho.steps.sound hs).layout.cell?_small hspan' hk
  obtain ⟨-, c, hobj, -⟩ := ho.fresh hs
  rw [← haddr] at hcell
  obtain rfl := Option.some.inj (hobj.1.symm.trans hcell)
  exact ⟨_, hobj, hspan'⟩

/-! ### Workers -/

/-- The free list is found among what the workers allocate from. -/
theorem shelf_eq (h : Heap) (id : Nat) (s : Span) :
    h.shelf id s = ((h.stock.find? (·.id = id)).map fun u => u.freeLists.get s).getD [] := by
  rw [shelf, stock, List.find?_map, Option.map_map]
  rfl

theorem shelf_of_stock
    (hsame : h'.stock = h.stock) :
    h'.shelf id s = h.shelf id s := by
  rw [shelf_eq, shelf_eq, hsame]

theorem shelf_of_clients
    (hc : h'.clients = h.clients) :
    h'.shelf id s = h.shelf id s :=
  shelf_of_stock (stock_of_clients hc)

/-- The supplies of one worker matter for its own free lists only. -/
theorem shelf_eq_of_ne
    (hne : id ≠ other)
    (h : Heap) (s : Span) :
    h.shelf id s =
      (((h.stockOfOthers other).find? (·.id = id)).map fun u => u.freeLists.get s).getD [] := by
  have hfind : h.stock.find? (·.id = id) = (h.stockOfOthers other).find? (·.id = id) := by
    rw [stockOfOthers, List.find?_filter]
    congr 1
    funext u
    by_cases hu : u.id = id <;> simp [hu, hne]
  rw [shelf_eq, hfind]

/-- What one worker does leaves the free lists of the others. -/
theorem shelf_of_stockOfOthers
    (hne : id ≠ other)
    (hsame : h'.stockOfOthers other = h.stockOfOthers other) :
    h'.shelf id s = h.shelf id s := by
  rw [shelf_eq_of_ne hne, shelf_eq_of_ne hne, hsame]

theorem worker?_modifyWorker
    (hf : ∀ w, (f w).id = w.id)
    (hw : h.worker? id = some w) :
    (h.modifyWorker id f).worker? id = some (f w) := by
  obtain ⟨-, hid⟩ := worker?_eq_some hw
  have hsame : ((fun w : Worker => decide (w.id = id)) ∘ fun w => if w.id = id then f w else w) =
      fun w => decide (w.id = id) := by
    funext w
    by_cases hw : w.id = id <;> simp [hw, hf]
  rw [worker?] at hw
  rw [worker?, modifyWorker, List.find?_map, hsame, hw, Option.map_some, if_pos hid]

theorem exists_worker?
    (hid : ∃ w ∈ h.workers, w.id = id) :
    ∃ w, h.worker? id = some w := by
  obtain ⟨w, hw, hwid⟩ := hid
  exact Option.isSome_iff_exists.1 (List.find?_isSome.2 ⟨w, hw, decide_eq_true hwid⟩)

theorem shelf_of_worker?
    (hw : h.worker? id = some w) :
    h.shelf id s = w.freeLists.get s := by
  rw [shelf, hw]
  rfl

/-- A change of a worker that keeps the list for the span. -/
theorem shelf_modifyWorker
    (hid : ∀ w, (f w).id = w.id)
    (hlist : ∀ w, (f w).freeLists.get s = w.freeLists.get s) :
    (h.modifyWorker other f).shelf id s = h.shelf id s := by
  by_cases hne : id = other
  · subst hne
    cases hw : h.worker? id with
    | some w =>
        rw [shelf_of_worker? (worker?_modifyWorker hid hw), shelf_of_worker? hw]
        exact hlist w
    | none =>
        have hsame : (h.modifyWorker id f).stock = h.stock := by
          rw [stock, modifyWorker, List.map_map]
          refine List.map_congr_left fun w hmem => ?_
          rw [worker?, List.find?_eq_none] at hw
          rw [Function.comp_apply, if_neg fun heq => hw w hmem (decide_eq_true heq)]
        exact shelf_of_stock hsame
  · exact shelf_of_stockOfOthers hne (stockOfOthers_modifyWorker hid)

theorem shelf_addWorker (h : Heap) (id : Nat) (s : Span) :
    h.addWorker.2.shelf id s = h.shelf id s := by
  rw [shelf, shelf, worker?, worker?, addWorker]
  dsimp only
  rw [List.find?_append]
  cases h.workers.find? (·.id = id) with
  | some w => rfl
  | none =>
      by_cases hid : h.nextWorker = id
      · simp [hid]
      · simp [hid]

theorem shelf_retireWorker
    (hne : id ≠ other)
    (hr : h.retireWorker other = .ok g) :
    g.shelf id s = h.shelf id s := by
  rcases retireWorker_cases hr with rfl | ⟨retired, rfl⟩
  · rfl
  · rw [shelf_eq, shelf_eq_of_ne hne, stockOfOthers, stock, stock, List.filter_map]
    rfl

/-! ### Reuse and claims -/

/-- Reuse pops the latest entry. -/
theorem shelf_popFree
    (hp : h.popFree id s = (some e, g)) :
    h.shelf id s = e :: g.shelf id s := by
  rw [popFree] at hp
  split at hp
  · next d hhead =>
      cases hp
      obtain ⟨w, hw, hfirst⟩ := Option.bind_eq_some_iff.1 hhead
      obtain ⟨rest, hrest⟩ := List.head?_eq_some_iff.1 hfirst
      have hpopped := worker?_modifyWorker
        (f := fun w => { w with freeLists := w.freeLists.modify s List.tail }) (fun _ => rfl) hw
      rw [shelf_of_worker? hw, shelf_of_worker? hpopped, SpanTable.get_modify_self, hrest,
        List.tail_cons]
  · cases hp

theorem shelf_eq_nil_of_popFree
    (hp : h.popFree id s = (none, g)) :
    h.shelf id s = [] := by
  rw [popFree] at hp
  split at hp
  · cases hp
  · next hhead =>
      rw [shelf]
      cases hw : h.worker? id with
      | none => rfl
      | some w =>
          rw [hw] at hhead
          exact List.head?_eq_none_iff.1 hhead

theorem shelf_setCursor (h : Heap) (other : Nat) (t : Span) (k : Cursor) :
    (h.setCursor other t k).shelf id s = h.shelf id s :=
  shelf_modifyWorker (fun _ => rfl) fun _ => rfl

theorem shelf_count (h : Heap) (other : Nat) (c : Counter) (n : Nat) :
    (h.count other c n).shelf id s = h.shelf id s :=
  shelf_modifyWorker (fun _ => rfl) fun _ => rfl

theorem shelf_publish (h : Heap) (block cell addr size : Nat) :
    (h.publish block cell addr size).shelf id s = h.shelf id s :=
  shelf_of_clients (clients_publish h block cell addr size)

theorem shelf_claim (h : Heap) (other : Nat) (t : Span) :
    (h.claim other t).2.shelf id s = h.shelf id s := by
  rw [claim]
  split
  · next b j _ =>
      refine (shelf_count ..).trans ?_
      exact (shelf_publish (h.setCursor other t ⟨b, j + 1⟩) b j
        (Arena.blockBase b + j * t.cellSize) t.cellSize).trans (shelf_setCursor h other t ⟨b, j + 1⟩)
  · rfl

/-- Reuse for another span leaves the free list. -/
theorem shelf_reuse
    (hts : t ≠ s)
    (h : Heap) (other : Nat) :
    ((reuse other t).run h).2.shelf id s = h.shelf id s := by
  have hpop : ∀ o g, h.popFree other t = (o, g) → g.shelf id s = h.shelf id s := by
    intro o g hp
    rw [popFree] at hp
    split at hp
    · cases hp
      exact shelf_modifyWorker (fun _ => rfl) fun w => SpanTable.get_modify_of_ne _ _ hts.symm
    · cases hp
      rfl
  rw [reuse_run]
  rcases hp : h.popFree other t with ⟨_ | e, g⟩
  · exact hpop _ _ hp
  · dsimp only
    split
    · rw [shelf_count, shelf_publish]
      exact hpop _ _ hp
    · exact hpop _ _ hp

/-! ### Eager frees -/

/-- An accepted eager free pushes the cell. -/
theorem shelf_park
    (hid : ∃ w ∈ h.workers, w.id = id)
    (s : Span) (e : FreeEntry) :
    (h.park id s e).shelf id s = e :: h.shelf id s := by
  obtain ⟨w, hw⟩ := exists_worker? hid
  have hparked : (h.park id s e).worker? id =
      some { w with freeLists := w.freeLists.modify s (e :: ·) } :=
    worker?_modifyWorker (h := { h with
      arena := h.arena.modifyHeader e.block e.cell (·.withState .cached) }) (fun _ => rfl) hw
  rw [shelf_of_worker? hw, shelf_of_worker? hparked, SpanTable.get_modify_self]

theorem shelf_park_of_ne
    (hts : t ≠ s)
    (h : Heap) (other : Nat) (e : FreeEntry) :
    (h.park other t e).shelf id s = h.shelf id s :=
  shelf_modifyWorker (h := { h with
      arena := h.arena.modifyHeader e.block e.cell (·.withState .cached) })
    (fun _ => rfl) fun _ => SpanTable.get_modify_of_ne _ _ hts.symm

/-- An eager free leaves the free list, or puts an object of the span into a free list. -/
theorem shelf_free
    (hs : h.Sound)
    (other x size : Nat) (shape : Option Shape) :
    (h.free other x size shape).2.shelf id s = h.shelf id s ∨
      h.HoldsAt s x ∧ (h.free other x size shape).2.CachedAt x := by
  rw [free]
  cases hf : h.freeable x size shape with
  | error reason => exact Or.inl (shelf_count ..)
  | ok p =>
      obtain ⟨t, e⟩ := p
      obtain ⟨c, hx, hst, -, hspan, rfl⟩ := freeable_eq_ok hs.layout hf
      by_cases hts : t = s
      · subst hts
        refine Or.inr ⟨⟨c, ⟨hx, hst⟩, hspan⟩, { c with header := c.header.withState .cached }, ?_, rfl⟩
        exact (Arena.cell?_modifyHeader_of_cell hx (·.withState .cached) x).trans (if_pos rfl)
      · exact Or.inl ((shelf_count ..).trans (shelf_park_of_ne hts ..))

end Heap

end EagerHeap
