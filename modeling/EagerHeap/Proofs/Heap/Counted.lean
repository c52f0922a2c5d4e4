import EagerHeap.Proofs.Heap.Stock
/-!
# Counters of a heap

A heap has one number for each counter: the sum over the live workers and those that ended. Counting
for a live worker adds to it, the end of a worker keeps it, and nothing else changes it. The summary of
all workers gives these numbers, as long as they are words.

Main results: `counted_count`, `counted_retireWorker`, `get_of_stats` and `exists_stats`.
-/

namespace EagerHeap

/-! ### Sums over the elements of a list -/

section Sums

variable {α : Type} {l : List α} {x : α}

/-- A change of one element changes the sum by that of its value. -/
theorem sum_map_ite_add
    {key g : α → Nat}
    (f : α → α)
    (hl : (l.map key).Nodup)
    (hx : x ∈ l) :
    (l.map fun y => g (if key y = key x then f y else y)).sum + g x = (l.map g).sum + g (f x) := by
  induction l with
  | nil => cases hx
  | cons z l ih =>
      rw [List.map_cons, List.nodup_cons] at hl
      rw [List.map_cons, List.map_cons, List.sum_cons, List.sum_cons]
      rcases List.mem_cons.1 hx with rfl | hx
      · have hsame : l.map (fun y => g (if key y = key x then f y else y)) = l.map g := by
          refine List.map_congr_left fun y hy => ?_
          rw [if_neg fun hkey : key y = key x => hl.1 (hkey ▸ List.mem_map_of_mem hy)]
        rw [hsame, if_pos rfl]
        omega
      · have hne : key z ≠ key x := fun hkey => hl.1 (hkey ▸ List.mem_map_of_mem hx)
        have hrest := ih hl.2 hx
        rw [if_neg hne]
        omega

/-- The sum without one element and the value of the element are the sum. -/
theorem sum_map_filter_add
    {key g : α → Nat}
    (hl : (l.map key).Nodup)
    (hx : x ∈ l) :
    ((l.filter fun y => key y ≠ key x).map g).sum + g x = (l.map g).sum := by
  induction l with
  | nil => cases hx
  | cons z l ih =>
      rw [List.map_cons, List.nodup_cons] at hl
      rw [List.map_cons, List.sum_cons]
      rcases List.mem_cons.1 hx with rfl | hx
      · have hsame : l.filter (fun y => key y ≠ key x) = l := by
          refine List.filter_eq_self.2 fun y hy => decide_eq_true fun hkey => ?_
          exact hl.1 (hkey ▸ List.mem_map_of_mem hy)
        rw [List.filter_cons_of_neg (by simp), hsame]
        omega
      · have hne : key z ≠ key x := fun hkey => hl.1 (hkey ▸ List.mem_map_of_mem hx)
        have hrest := ih hl.2 hx
        rw [List.filter_cons_of_pos (by simp [hne]), List.map_cons, List.sum_cons]
        omega

end Sums

/-! ### Sums of tallies -/

namespace Tally

variable {t u v : Tally}

@[simp] theorem get_empty (c : Counter) : ({} : Tally).get c = 0 := by simp [get]

/-- A part of the counters is added to another tally. -/
theorem get_of_foldlM_add
    {cs : List Counter} {r : Tally}
    (hcs : cs.Nodup)
    (h : cs.foldlM (fun sum c => do
        let n ← Word.add (t.get c) (u.get c)
        return sum.add c n) r = .ok v)
    (c : Counter) :
    v.get c = r.get c + if c ∈ cs then t.get c + u.get c else 0 := by
  induction cs generalizing r with
  | nil =>
      cases h
      rfl
  | cons d cs ih =>
      rw [List.nodup_cons] at hcs
      rw [List.foldlM_cons] at h
      cases hsum : Word.add (t.get d) (u.get d) with
      | error o =>
          rw [hsum] at h
          cases h
      | ok n =>
          rw [hsum] at h
          obtain ⟨-, rfl⟩ := Word.add_eq_ok_iff.1 hsum
          rw [ih hcs.2 h]
          by_cases hcd : c = d
          · rw [hcd, get_add_self, if_neg hcs.1, if_pos (List.mem_cons_self ..), Nat.add_zero]
          · rw [get_add_of_ne _ _ hcd]
            simp only [List.mem_cons, hcd, false_or]

theorem exists_foldlM_add
    (cs : List Counter)
    (hlt : ∀ c, t.get c + u.get c < Word.bound)
    (r : Tally) :
    ∃ v, cs.foldlM (fun sum c => do
        let n ← Word.add (t.get c) (u.get c)
        return sum.add c n) r = .ok v := by
  induction cs generalizing r with
  | nil => exact ⟨r, rfl⟩
  | cons d cs ih =>
      rw [List.foldlM_cons, Word.add_eq_ok_iff.2 ⟨hlt d, rfl⟩]
      exact ih _

theorem get_of_plus
    (h : t.plus u = .ok v)
    (c : Counter) :
    v.get c = t.get c + u.get c := by
  have hnodup : Counter.all.Nodup := by decide
  rw [get_of_foldlM_add hnodup h c, get_empty, if_pos (Counter.mem_all c), Nat.zero_add]

theorem exists_plus
    (hlt : ∀ c, t.get c + u.get c < Word.bound) :
    ∃ v, t.plus u = .ok v :=
  exists_foldlM_add Counter.all hlt {}

theorem get_of_foldlM_plus
    {α : Type} {f : α → Tally} {l : List α}
    (h : l.foldlM (fun sum a => sum.plus (f a)) t = .ok v)
    (c : Counter) :
    v.get c = t.get c + (l.map fun a => (f a).get c).sum := by
  induction l generalizing t with
  | nil =>
      cases h
      rfl
  | cons a l ih =>
      rw [List.foldlM_cons] at h
      cases hsum : t.plus (f a) with
      | error o =>
          rw [hsum] at h
          cases h
      | ok s =>
          rw [hsum] at h
          rw [ih h, get_of_plus hsum, List.map_cons, List.sum_cons, Nat.add_assoc]

theorem exists_foldlM_plus
    {α : Type} {f : α → Tally} {l : List α}
    (hlt : ∀ c, t.get c + (l.map fun a => (f a).get c).sum < Word.bound) :
    ∃ v, l.foldlM (fun sum a => sum.plus (f a)) t = .ok v := by
  induction l generalizing t with
  | nil => exact ⟨t, rfl⟩
  | cons a l ih =>
      simp only [List.map_cons, List.sum_cons, ← Nat.add_assoc] at hlt
      obtain ⟨s, hs⟩ := exists_plus fun c => Nat.lt_of_le_of_lt (Nat.le_add_right ..) (hlt c)
      rw [List.foldlM_cons, hs]
      exact ih fun c => by
        rw [get_of_plus hs]
        exact hlt c

end Tally

/-! ### The counters of a heap -/

namespace Heap

/-- The number of a counter over all workers, those that ended included. -/
def counted (h : Heap) (c : Counter) : Nat :=
  h.retired.get c + (h.workers.map fun w => w.tally.get c).sum

variable {h h' g : Heap} {id n : Nat} {c d : Counter} {f u : Worker → Worker} {F : Tally}

theorem counted_of_workers
    (hworkers : h'.workers = h.workers)
    (hretired : h'.retired = h.retired) :
    h'.counted c = h.counted c := by
  rw [counted, counted, hworkers, hretired]

theorem counted_of_clients
    (hc : h'.clients = h.clients) :
    h'.counted c = h.counted c :=
  counted_of_workers (workers_of_clients hc) (retired_of_clients hc)

theorem counted_modifyWorker
    (hf : ∀ w, (f w).tally.get c = w.tally.get c) :
    (h.modifyWorker id f).counted c = h.counted c := by
  have hsame : ∀ w, (if w.id = id then f w else w).tally.get c = w.tally.get c := by
    intro w
    split
    · exact hf w
    · rfl
  have hmap : (h.modifyWorker id f).workers.map (fun w => w.tally.get c) =
      h.workers.map fun w => w.tally.get c := by
    rw [modifyWorker, List.map_map]
    exact List.map_congr_left fun w _ => hsame w
  rw [counted, counted, hmap]
  rfl

/-- The counters depend on nothing else of the workers. -/
theorem counted_modifyWorker_congr
    (hfu : ∀ w, (f w).tally = (u w).tally) :
    (h.modifyWorker id f).counted c = (h.modifyWorker id u).counted c := by
  have hsame : ∀ w, (if w.id = id then f w else w).tally.get c =
      (if w.id = id then u w else w).tally.get c := by
    intro w
    split
    · rw [hfu w]
    · rfl
  rw [counted, counted, modifyWorker, modifyWorker, List.map_map, List.map_map]
  exact congrArg (fun l => h.retired.get c + l.sum) (List.map_congr_left fun w _ => hsame w)

/-- Counting for one counter leaves the others as they are. -/
theorem counted_count_of_ne
    (hdc : d ≠ c) :
    (h.count id c n).counted d = h.counted d :=
  counted_modifyWorker fun w => Tally.get_add_of_ne w.tally n hdc

/-- A live worker counts for the heap. -/
theorem counted_count
    (hids : (h.workers.map Worker.id).Nodup)
    (hid : id ∈ h.workers.map Worker.id)
    (c : Counter) (n : Nat) (d : Counter) :
    (h.count id c n).counted d = h.counted d + if d = c then n else 0 := by
  by_cases hdc : d = c
  · obtain ⟨w, hw, rfl⟩ := List.mem_map.1 hid
    have hsum := sum_map_ite_add (g := fun w => w.tally.get c)
      (fun w => { w with tally := w.tally.add c n }) hids hw
    rw [Tally.get_add_self] at hsum
    rw [hdc, if_pos rfl, counted, counted, count, modifyWorker, List.map_map]
    simp only [Function.comp_def] at hsum ⊢
    omega
  · rw [if_neg hdc]
    exact counted_count_of_ne hdc

theorem counted_addWorker (h : Heap) (c : Counter) : h.addWorker.2.counted c = h.counted c := by
  rw [counted, counted, addWorker]
  simp

theorem counted_dropRegistry (h : Heap) (r : Nat) (c : Counter) :
    (h.dropRegistry r).counted c = h.counted c := by
  rw [dropRegistry]
  split
  · exact counted_modifyWorker fun _ => rfl
  · rfl

theorem counted_enterScope (h : Heap) (id r : Nat) (c : Counter) :
    ((enterScope id r).run h).2.counted c = h.counted c := by
  rw [enterScope_run]
  split
  · rfl
  · exact counted_modifyWorker (h := h.setOwner r (some id)) fun _ => rfl

theorem retired_zeroSlotsOf (rs : List Nat) (h : Heap) :
    (h.zeroSlotsOf rs).2.retired = h.retired := by
  induction rs generalizing h with
  | nil => rfl
  | cons r rs ih =>
      refine (ih (h.zeroSlots r).2).trans ?_
      rw [zeroSlots]
      split <;> rfl

theorem counted_invalidateSlots (h : Heap) (c : Counter) :
    h.invalidateSlots.2.counted c = h.counted c :=
  counted_of_workers (workers_invalidateSlots h).1 (retired_zeroSlotsOf h.knownRegistries h)

/-- The counters of a worker that ends are kept. -/
theorem counted_retireWorker
    (hids : (h.workers.map Worker.id).Nodup)
    (hr : h.retireWorker id = .ok g)
    (c : Counter) :
    g.counted c = h.counted c := by
  rw [retireWorker] at hr
  split at hr
  · cases hr
    rfl
  · next w hw =>
      obtain ⟨hmem, rfl⟩ := worker?_eq_some hw
      cases hp : h.retired.plus w.tally with
      | error o =>
          rw [hp] at hr
          cases hr
      | ok t =>
          rw [hp] at hr
          cases hr
          have hsum := sum_map_filter_add (g := fun w => w.tally.get c) hids hmem
          rw [counted, counted, Tally.get_of_plus hp]
          dsimp only
          omega

/-- The summary of all workers gives the counters of the heap. -/
theorem get_of_stats
    (hF : h.stats = .ok F)
    (c : Counter) :
    F.get c = h.counted c :=
  Tally.get_of_foldlM_plus hF c

/-- The summary of all workers fails only if some counter of the heap is no word. -/
theorem exists_stats
    (hlt : ∀ c, h.counted c < Word.bound) :
    ∃ F, h.stats = .ok F :=
  Tally.exists_foldlM_plus hlt

end Heap

end EagerHeap
