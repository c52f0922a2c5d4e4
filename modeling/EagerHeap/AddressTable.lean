/-!
# Tables keyed by address

An `AddressTable` holds one value for each of finitely many addresses, in ascending order of the
addresses. It is seen through `find?`, and its only way of changing is `alter`, which replaces,
removes or inserts the value at one address (`find?_alter_self`, `find?_alter_of_ne`).
-/

namespace EagerHeap

/-- Values for finitely many addresses. -/
structure AddressTable (α : Type) where
  /-- The addresses with their values. -/
  entries : List (Nat × α) := []
  /-- The addresses ascend. -/
  ascending : entries.Pairwise (·.1 < ·.1) := by exact List.Pairwise.nil

namespace AddressTable

variable {α : Type}

/-- Looks an address up among ascending entries. -/
def lookup (key : Nat) : List (Nat × α) → Option α
  | [] => none
  | (k, v) :: rest => if k = key then some v else lookup key rest

/-- Puts an optional entry in front. -/
def consIf (key : Nat) : Option α → List (Nat × α) → List (Nat × α)
  | some v, rest => (key, v) :: rest
  | none, rest => rest

/-- Changes the value at one address among ascending entries. -/
def change (key : Nat) (f : Option α → Option α) : List (Nat × α) → List (Nat × α)
  | [] => consIf key (f none) []
  | (k, v) :: rest =>
    if key < k then consIf key (f none) ((k, v) :: rest)
    else if key = k then consIf key (f (some v)) rest
    else (k, v) :: change key f rest

theorem mem_change {key : Nat} {f : Option α → Option α} {l : List (Nat × α)} {e : Nat × α}
    (h : e ∈ change key f l) : e.1 = key ∨ e ∈ l := by
  induction l with
  | nil =>
    cases hf : f none <;> simp_all [change, consIf]
  | cons p rest ih =>
    obtain ⟨k, v⟩ := p
    simp only [change] at h
    split at h
    · cases hf : f none <;> simp_all [consIf]
      rcases h with rfl | h
      · exact Or.inl rfl
      · exact Or.inr h
    · split at h
      · cases hf : f (some v) <;> simp_all [consIf]
        rcases h with rfl | h
        · exact Or.inl rfl
        · exact Or.inr (Or.inr h)
      · rcases List.mem_cons.1 h with rfl | h
        · simp
        · rcases ih h with h | h
          · exact Or.inl h
          · exact Or.inr (List.mem_cons_of_mem _ h)

theorem pairwise_change (key : Nat) (f : Option α → Option α) {l : List (Nat × α)}
    (h : l.Pairwise (·.1 < ·.1)) : (change key f l).Pairwise (·.1 < ·.1) := by
  induction l with
  | nil => cases hf : f none <;> simp [change, consIf, hf]
  | cons p rest ih =>
    obtain ⟨k, v⟩ := p
    obtain ⟨hk, hrest⟩ := List.pairwise_cons.1 h
    simp only [change]
    split
    · next hlt =>
      cases hf : f none with
      | none => exact h
      | some w =>
        refine List.pairwise_cons.2 ⟨fun e he => ?_, h⟩
        rcases List.mem_cons.1 he with rfl | he
        · exact hlt
        · exact Nat.lt_trans hlt (hk e he)
    · split
      · next heq =>
        subst heq
        cases hf : f (some v) with
        | none => exact hrest
        | some w => exact List.pairwise_cons.2 ⟨hk, hrest⟩
      · next hnlt hne =>
        refine List.pairwise_cons.2 ⟨fun e he => ?_, ih hrest⟩
        rcases mem_change he with he | he
        · rw [he]
          simp only
          omega
        · exact hk e he

/-- The table without entries. -/
def empty : AddressTable α := {}

/-- The value at an address. -/
def find? (t : AddressTable α) (key : Nat) : Option α := lookup key t.entries

/-- Replaces, removes or inserts the value at an address. -/
def alter (t : AddressTable α) (key : Nat) (f : Option α → Option α) : AddressTable α :=
  ⟨change key f t.entries, pairwise_change key f t.ascending⟩

/-- The addresses in ascending order. -/
def keys (t : AddressTable α) : List Nat := t.entries.map (·.1)

/-- The number of addresses. -/
def size (t : AddressTable α) : Nat := t.entries.length

theorem lookup_eq_none_of_lt {key : Nat} {l : List (Nat × α)} (h : ∀ e ∈ l, key < e.1) :
    lookup key l = none := by
  induction l with
  | nil => rfl
  | cons p rest ih =>
    have hp : ¬ p.1 = key := fun e => Nat.lt_irrefl key (e ▸ h p (List.mem_cons_self ..))
    simp only [lookup, hp, if_false]
    exact ih fun e he => h e (List.mem_cons_of_mem _ he)

theorem mem_keys_of_find? {t : AddressTable α} {key : Nat} {v : α} (h : t.find? key = some v) :
    key ∈ t.keys := by
  have aux : ∀ l : List (Nat × α), lookup key l = some v → key ∈ l.map (·.1) := by
    intro l
    induction l with
    | nil => exact fun h => nomatch h
    | cons p rest ih =>
      simp only [lookup]
      split
      · next heq => exact fun _ => heq ▸ List.mem_cons_self ..
      · exact fun h => List.mem_cons_of_mem _ (ih h)
  exact aux t.entries h

theorem nodup_keys (t : AddressTable α) : t.keys.Nodup := by
  refine List.Pairwise.map _ (fun e d hlt heq => ?_) t.ascending
  exact absurd heq (Nat.ne_of_lt hlt)

@[simp] theorem find?_alter_self (t : AddressTable α) (key : Nat) (f : Option α → Option α) :
    (t.alter key f).find? key = f (t.find? key) := by
  have aux : ∀ l : List (Nat × α), l.Pairwise (·.1 < ·.1) →
      lookup key (change key f l) = f (lookup key l) := by
    intro l hl
    induction l with
    | nil => cases hf : f none <;> simp [change, consIf, lookup, hf]
    | cons p rest ih =>
      obtain ⟨k, v⟩ := p
      obtain ⟨hk, hrest⟩ := List.pairwise_cons.1 hl
      simp only [change]
      split
      · next hlt =>
        have hnone : lookup key ((k, v) :: rest) = none := by
          refine lookup_eq_none_of_lt fun e he => ?_
          rcases List.mem_cons.1 he with rfl | he
          · exact hlt
          · exact Nat.lt_trans hlt (hk e he)
        rw [hnone]
        cases hf : f none with
        | none => exact hnone
        | some w => simp [consIf, lookup]
      · split
        · next heq =>
          subst heq
          have hnone : lookup key rest = none := lookup_eq_none_of_lt hk
          cases hf : f (some v) <;> simp [consIf, lookup, hnone, hf]
        · next hne =>
          have hne' : ¬ k = key := fun e => hne e.symm
          simp [lookup, hne', ih hrest]
  exact aux t.entries t.ascending

theorem find?_alter_of_ne (t : AddressTable α) {key other : Nat} (f : Option α → Option α)
    (h : other ≠ key) : (t.alter key f).find? other = t.find? other := by
  have aux : ∀ l : List (Nat × α), lookup other (change key f l) = lookup other l := by
    have hcons : ∀ (o : Option α) (l : List (Nat × α)),
        lookup other (consIf key o l) = lookup other l := by
      intro o l
      cases o with
      | none => rfl
      | some v => simp [consIf, lookup, h.symm]
    intro l
    induction l with
    | nil => exact hcons _ _
    | cons p rest ih =>
      obtain ⟨k, v⟩ := p
      simp only [change]
      split
      · exact hcons _ _
      · split
        · next heq =>
          subst heq
          rw [hcons]
          simp [lookup, h.symm]
        · simp [lookup, ih]
  exact aux t.entries

end AddressTable

end EagerHeap
