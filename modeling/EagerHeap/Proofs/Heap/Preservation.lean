import EagerHeap.Proofs.Heap.Ticks
import EagerHeap.Proofs.Records
import Mathlib.Logic.Relation
/-!
# What elementary changes preserve

Every elementary change keeps a heap sound. An object stays what it is under every change that does
not free it, and its words change only when they are written.

Main results: `Tick.sound`, `Tick.stays` and `Tick.read`. `Steps` carries them over to sequences of
changes.
-/

namespace EagerHeap

/-! ### The fate of one cell -/

section CellChange

variable {p : Phase} {l : Act} {y : Nat} {c c' : Cell} {o : Option Cell} {hd hd' : Header}

/-- What sweeping may free: an unreached object without records. -/
def Header.isDoomed (hd : Header) : Bool := hd.isUnreached && !hd.hasFlag Header.sideRecord

theorem Header.isDoomed_of
    (hu : hd.isUnreached = true)
    (hf : hd.hasFlag Header.sideRecord = false) :
    hd.isDoomed = true := by
  simp [isDoomed, hu, hf]

theorem HeaderChange.state_eq
    (h : HeaderChange p l y hd hd')
    (hs : hd.state = .allocated)
    (hpark : l ≠ .park y)
    (hreclaim : l = .reclaim y → hd.isDoomed = false) :
    hd'.state = .allocated := by
  cases h with
  | birth hne => exact absurd hs hne
  | park hs' hf => exact absurd rfl hpark
  | uncache hs' =>
      rw [hs] at hs'
      cases hs'
  | reclaim hu hf =>
      have := hreclaim rfl
      rw [Header.isDoomed_of hu hf] at this
      cases this
  | _ => exact hs

theorem HeaderChange.rank_le
    (h : HeaderChange p l y hd hd')
    (hs : hd.state = .allocated)
    (hbegin : l ≠ .begin) :
    hd.color.rank ≤ hd'.color.rank := by
  cases h with
  | birth hne => exact absurd hs hne
  | paint hrank hkeep => exact hrank
  | begin => exact absurd rfl hbegin
  | _ => exact Nat.le_refl _

/-- An object stays unless it is freed. -/
theorem CellChange.stays
    (h : CellChange p l y (some c) o)
    (hs : c.header.state = .allocated)
    (hpark : l ≠ .park y)
    (hreclaim : l = .reclaim y → c.header.isDoomed = false) :
    ∃ hd, o = some { c with header := hd } ∧ hd.state = .allocated ∧
      HeaderChange p l y c.header hd := by
  cases h with
  | kept hc => exact ⟨_, rfl, hc.state_eq hs hpark hreclaim, hc⟩
  | removed ha hu hf =>
      have := hreclaim ha
      rw [Header.isDoomed_of hu hf] at this
      cases this

/-- A new object is handed out by a birth. -/
theorem CellChange.birth
    (h : CellChange p l y o (some c'))
    (hs' : c'.header.state = .allocated)
    (hs : ∀ c, o = some c → c.header.state ≠ .allocated) :
    l = .birth y ∧ c'.header = Header.fresh p.allocationColor := by
  cases h with
  | kept hc =>
      have hne := hs _ rfl
      cases hc with
      | birth => exact ⟨rfl, rfl⟩
      | park hst => exact absurd hst hne
      | uncache => cases hs'
      | reclaim => cases hs'
      | _ => exact absurd hs' hne
  | carved ha hc =>
      rw [hc] at hs'
      cases hs'
  | born ha hc => exact ⟨ha, hc⟩

end CellChange

namespace Heap

variable {h h' h'' : Heap} {l : Act} {x y i : Nat} {c : Cell} {s : Span}

/-! ### The uses of blocks -/

/-- An elementary change keeps the outline of a block, or the block belongs to runs before and after
it. -/
theorem Tick.outline?
    {b : Block}
    (hs : h.Sound)
    (ht : Tick h l h')
    (hb : h.arena.outline? i = some b) :
    h'.arena.outline? i = some b ∨
      (∃ n, h.arena.HasRun i n) ∧ ∃ n, h'.arena.HasRun i n := by
  have hsame : Arena.SameOutline h.arena h'.arena → h'.arena.outline? i = some b := fun hout =>
    (hout.outline? i).trans hb
  have hcongr : h'.arena.blocks[i]? = h.arena.blocks[i]? → h'.arena.outline? i = some b := by
    intro heq
    rw [Arena.outline?, heq]
    exact hb
  cases ht with
  | still hst => exact Or.inl (hsame hst.outline)
  | @carve t j a' hc =>
      obtain ⟨-, -, -, hnone, -, hother⟩ := hs.layout.carveBlock hc
      have hne : i ≠ j := by
        rintro rfl
        rw [Arena.outline?, hnone] at hb
        cases hb
      exact Or.inl (hcongr (hother i hne))
  | birthCell hx hne => exact Or.inl (hsame (Arena.sameOutline_publish _ _ _ _ _ _))
  | @birthRun n j a' sh hn hc =>
      have htaken := hs.layout.runTaken hn hc
      obtain ⟨hself, hother⟩ := htaken.open_blocks hn sh (Arena.blockBase j) (n * blockSize)
        h.phase.allocationColor
      by_cases hin : j ≤ i ∧ i < j + n
      · obtain ⟨⟨hd, sh', hspare, -⟩, -, hgone | hfree⟩ := htaken.taken i hin.1 hin.2
        · rw [Arena.outline?, hgone] at hb
          cases hb
        · refine Or.inr ⟨⟨0, hs.layout.spare i hfree⟩, ?_⟩
          by_cases hij : i = j
          · rw [hij]
            exact ⟨n, Arena.hasRun_of_getElem? hself⟩
          · exact ⟨0, Arena.hasRun_of_getElem? ((hother i hij).trans hspare)⟩
      · have hne : i ≠ j := by
          rintro rfl
          exact hin ⟨Nat.le_refl i, Nat.lt_add_of_pos_right hn⟩
        exact Or.inl (hcongr ((hother i hne).trans (htaken.others i hin).1))
  | @reclaimRun j n hd sh hbj hn hu hf =>
      obtain ⟨hself, hother⟩ := Arena.close_blocks hbj
      by_cases hij : i = j
      · rw [hij]
        exact Or.inr ⟨⟨n, Arena.hasRun_of_getElem? hbj⟩, 0, Arena.hasRun_of_getElem? hself⟩
      · exact Or.inl (hcongr (hother i hij))
  | park id hx hst hf hsp => exact Or.inl (hsame (Arena.sameOutline_modifyHeader _ _ _ _))
  | uncache hx hst => exact Or.inl (hsame (Arena.sameOutline_modifyHeader _ _ _ _))
  | reclaimCell hx hu hf hsmall => exact Or.inl (hsame (Arena.sameOutline_modifyHeader _ _ _ _))
  | store v hx hst hi =>
      refine Or.inl (hsame ?_)
      rw [arena_writeWord]
      exact Arena.sameOutline_write _ _ _
  | copy source hx hst hb' =>
      refine Or.inl (hsame ?_)
      rw [arena_copyBytes]
      exact Arena.sameOutline_copy _ _ _ _
  | attach kind hx =>
      refine Or.inl (hsame ?_)
      rw [attachRecord, if_pos hx]
      exact Arena.sameOutline_modifyHeaderAt _ _ _
  | finalize z =>
      refine Or.inl ?_
      unfold resurrect
      simp only
      split
      · exact hb
      · exact ((Arena.sameOutline_modifyHeaderAt _ _ _).outline? i).trans hb
  | cleanup hf => exact Or.inl (hsame (Arena.sameOutline_modifyHeaderAt _ _ _))
  | paint b' col hp => exact Or.inl (hsame hp.outline)
  | begin => exact Or.inl (hsame (Arena.sameOutline_resetColors _))
  | batch | turn | account => exact Or.inl hb

/-- The number of blocks for which there is room never changes. -/
theorem Tick.limit
    (hs : h.Sound)
    (ht : Tick h l h') :
    h'.arena.pages.limit = h.arena.pages.limit := by
  have hsame : Arena.SameOutline h.arena h'.arena →
      h'.arena.pages.limit = h.arena.pages.limit := fun hout => by rw [hout.pages]
  cases ht with
  | still hst => exact hsame hst.outline
  | carve hc => exact (hs.layout.carveBlock hc).2.2.1
  | birthCell => exact hsame (Arena.sameOutline_publish _ _ _ _ _ _)
  | birthRun sh hn hc => exact (hs.layout.runTaken hn hc).limit
  | park | uncache | reclaimCell => exact hsame (Arena.sameOutline_modifyHeader _ _ _ _)
  | store v hx hst hi =>
      refine hsame ?_
      rw [arena_writeWord]
      exact Arena.sameOutline_write _ _ _
  | copy source hx hst hb =>
      refine hsame ?_
      rw [arena_copyBytes]
      exact Arena.sameOutline_copy _ _ _ _
  | attach kind hx =>
      refine hsame ?_
      rw [attachRecord, if_pos hx]
      exact Arena.sameOutline_modifyHeaderAt _ _ _
  | finalize y =>
      rw [resurrect]
      dsimp only
      split
      · rfl
      · rw [(Arena.sameOutline_modifyHeaderAt _ _ _).pages]
  | cleanup hf => exact hsame (Arena.sameOutline_modifyHeaderAt _ _ _)
  | paint b col hp => exact hsame hp.outline
  | begin => exact hsame (Arena.sameOutline_resetColors _)
  | reclaimRun | batch | turn | account => rfl

/-- A block of small cells serves its span for good. -/
theorem Tick.hasSpan
    (hs : h.Sound)
    (ht : Tick h l h')
    (hspan : h.arena.HasSpan i s) :
    h'.arena.HasSpan i s := by
  rcases ht.outline? hs hspan with hsame | ⟨⟨n, hr⟩, -⟩
  · exact hsame
  · exact absurd hr hspan.not_hasRun

/-- A block of runs never holds small cells. -/
theorem Tick.hasRun
    (hs : h.Sound)
    (ht : Tick h l h')
    (hr : ∃ n, h.arena.HasRun i n) :
    ∃ n, h'.arena.HasRun i n := by
  obtain ⟨n, sh, hout⟩ := hr
  rcases ht.outline? hs hout with hsame | ⟨-, hr⟩
  · exact ⟨n, sh, hsame⟩
  · exact hr

theorem Tick.layout
    (hs : h.Sound)
    (ht : Tick h l h') :
    h'.arena.Layout := by
  cases ht with
  | still hst =>
      exact hs.layout.of_sameOutline hst.outline fun i n hd _ hhd =>
        ⟨hd, (hst.headers i 0).trans hhd, rfl⟩
  | carve hc => exact (hs.layout.carveBlock hc).1
  | @birthCell x c hx hne =>
      have hcell : (h.arena.withMemory (·.clear (Arena.wordIndex x) (c.size / Word.bytes))).cell? x =
          some c := (Arena.cell?_withMemory _ _ _).trans hx
      refine (hs.layout.withMemory _).modifyHeader hcell (Or.inl ?_)
      rcases hs.layout.cell?_cases hx with
        ⟨s, -, -, -, -, -, hsmall⟩ | ⟨n, sh, -, -, -, -, -, -, -, hst⟩
      · exact hsmall
      · exact absurd hst hne
  | birthRun sh hn hc => exact (hs.layout.runTaken hn hc).open_layout hs.layout hn sh _ _ _
  | park id hx hst hf hspan =>
      refine hs.layout.modifyHeader hx (Or.inl ?_)
      rcases hs.layout.cell?_cases hx with ⟨s, -, -, -, -, -, hsmall⟩ | ⟨n, sh, hr, -⟩
      · exact hsmall
      · exact absurd ⟨sh, hr⟩ hspan.not_hasRun
  | uncache hx hst =>
      refine hs.layout.modifyHeader hx (Or.inl ?_)
      rcases hs.layout.cell?_cases hx with
        ⟨s, -, -, -, -, -, hsmall⟩ | ⟨n, sh, -, -, -, -, -, -, -, hal⟩
      · exact hsmall
      · rw [hst] at hal
        cases hal
  | reclaimCell hx hu hf hsmall => exact hs.layout.modifyHeader hx (Or.inl hsmall)
  | reclaimRun hb hn hu hf => exact Arena.close_layout hs.layout hb hn
  | store v hx hst hi =>
      rw [arena_writeWord]
      exact hs.layout.write _ _
  | copy source hx hst hb =>
      rw [arena_copyBytes]
      exact hs.layout.copy _ _ _
  | attach kind hx =>
      rw [attachRecord, if_pos hx]
      exact hs.layout.modifyHeaderAt _ fun _ => rfl
  | finalize z =>
      unfold resurrect
      simp only
      split
      · exact hs.layout
      · exact hs.layout.modifyHeaderAt _ fun _ => rfl
  | cleanup hf => exact hs.layout.modifyHeaderAt _ fun _ => rfl
  | batch hr => exact hs.layout
  | paint b col hp => exact hp.layout hs.layout
  | begin => exact hs.layout.resetColors
  | turn hp => exact hs.layout
  | account hg => exact hs.layout

/-! ### Workers and lists of blocks -/

@[simp] theorem workers_remember (h : Heap) (v : Nat) : (h.remember v).workers = h.workers := by
  unfold remember
  split <;> rfl

@[simp] theorem central_remember (h : Heap) (v : Nat) : (h.remember v).central = h.central := by
  unfold remember
  split <;> rfl

theorem foldl_remember_lists (vs : List Nat) (h : Heap) :
    (vs.foldl remember h).workers = h.workers ∧ (vs.foldl remember h).central = h.central := by
  induction vs generalizing h with
  | nil => exact ⟨rfl, rfl⟩
  | cons v vs ih =>
      obtain ⟨h₁, h₂⟩ := ih (h.remember v)
      exact ⟨h₁.trans (workers_remember h v), h₂.trans (central_remember h v)⟩

theorem copyBytes_lists (h : Heap) (source target bytes : Nat) (sh : Shape) :
    (h.copyBytes source target bytes sh).workers = h.workers ∧
      (h.copyBytes source target bytes sh).central = h.central := by
  cases sh with
  | scan => exact foldl_remember_lists _ _
  | noScan => exact ⟨rfl, rfl⟩

@[simp] theorem workers_attachRecord (h : Heap) (x : Nat) (kind : RecordKind) :
    (h.attachRecord x kind).2.workers = h.workers := by
  unfold attachRecord
  split <;> rfl

@[simp] theorem central_attachRecord (h : Heap) (x : Nat) (kind : RecordKind) :
    (h.attachRecord x kind).2.central = h.central := by
  unfold attachRecord
  split <;> rfl

@[simp] theorem workers_resurrect (h : Heap) (x : Nat) : (h.resurrect x).workers = h.workers := by
  unfold resurrect
  simp only
  split <;> rfl

@[simp] theorem central_resurrect (h : Heap) (x : Nat) : (h.resurrect x).central = h.central := by
  unfold resurrect
  simp only
  split <;> rfl

theorem publish_lists (h : Heap) (b k addr size : Nat) :
    (h.publish b k addr size).workers = h.workers ∧
      (h.publish b k addr size).central = h.central := by
  unfold publish
  exact ⟨rfl, rfl⟩

theorem resetCycle_lists (h : Heap) :
    h.resetCycle.workers = h.workers ∧ h.resetCycle.central = h.central := by
  unfold resetCycle modifyCollector
  exact ⟨rfl, rfl⟩

theorem nextPhase_lists (h : Heap) :
    h.nextPhase.2.workers = h.workers ∧ h.nextPhase.2.central = h.central := by
  unfold nextPhase
  exact ⟨rfl, rfl⟩

/-- What a change of the free lists of one worker keeps. -/
theorem Stocked.modifyWorker
    {f : Worker → Worker}
    (hst : h.Stocked)
    (id : Nat)
    (hentries : ∀ w ∈ h.workers, ∀ s, ∀ e ∈ (f w).freeLists.get s, e.Fits h.arena s)
    (hcursors : ∀ w ∈ h.workers, ∀ s c, (f w).cursors.get s = some c →
      h.arena.HasSpan c.block s) :
    (h.modifyWorker id f).Stocked := by
  refine ⟨fun w hw s e he => ?_, fun w hw s c hc => ?_, hst.central⟩
  · obtain ⟨v, hv, rfl⟩ := List.mem_map.1 hw
    split at he
    · exact hentries v hv s e he
    · exact hst.entries v hv s e he
  · obtain ⟨v, hv, rfl⟩ := List.mem_map.1 hw
    split at hc
    · exact hcursors v hv s c hc
    · exact hst.cursors v hv s c hc

theorem Stocked.pushFree
    {e : FreeEntry}
    (hst : h.Stocked)
    (id : Nat)
    (he : e.Fits h.arena s) :
    (h.pushFree id s e).Stocked := by
  refine hst.modifyWorker id (fun w hw t d hd => ?_) fun w hw t c hc => hst.cursors w hw t c hc
  by_cases hts : t = s
  · subst hts
    rw [SpanTable.get_modify_self] at hd
    rcases List.mem_cons.1 hd with rfl | hd
    · exact he
    · exact hst.entries w hw t d hd
  · rw [SpanTable.get_modify_of_ne _ _ hts] at hd
    exact hst.entries w hw t d hd

theorem Tick.stocked
    (hs : h.Sound)
    (ht : Tick h l h') :
    h'.Stocked := by
  have hspan : ∀ i s, h.arena.HasSpan i s → h'.arena.HasSpan i s := fun i s => ht.hasSpan hs
  cases ht with
  | still hst => exact hst.stocked hs.stocked
  | @park x c s id hx hst hf hsp =>
      have hmoved : Stocked { h with
          arena := h.arena.modifyHeader c.block c.index (·.withState .cached) } :=
        hs.stocked.mono (fun i t hi => (Arena.sameOutline_modifyHeader _ _ _ _).hasSpan.2 hi) rfl rfl
      refine hmoved.pushFree id ⟨(Arena.sameOutline_modifyHeader _ _ _ _).hasSpan.2 hsp, ?_⟩
      rcases hs.layout.cell?_cases hx with ⟨t, ht, hk, hxa, -⟩ | ⟨n, sh, hr, -⟩
      · obtain rfl := hsp.unique ht
        exact ⟨hk, hxa⟩
      · exact absurd ⟨sh, hr⟩ hsp.not_hasRun
  | store v hx hst hi =>
      exact hs.stocked.mono hspan (workers_remember _ _) (central_remember _ _)
  | copy source hx hst hb =>
      exact hs.stocked.mono hspan (copyBytes_lists _ _ _ _ _).1 (copyBytes_lists _ _ _ _ _).2
  | attach kind hx =>
      exact hs.stocked.mono hspan (workers_attachRecord _ _ _) (central_attachRecord _ _ _)
  | finalize z =>
      exact hs.stocked.mono hspan (workers_resurrect _ _) (central_resurrect _ _)
  | birthCell hx hne =>
      exact hs.stocked.mono hspan (publish_lists _ _ _ _ _).1 (publish_lists _ _ _ _ _).2
  | birthRun sh hn hc =>
      exact hs.stocked.mono hspan (publish_lists _ _ _ _ _).1 (publish_lists _ _ _ _ _).2
  | begin =>
      obtain ⟨hw, hc⟩ := resetCycle_lists h
      obtain ⟨hw', hc'⟩ := nextPhase_lists h.resetCycle
      exact hs.stocked.mono hspan (hw'.trans hw) (hc'.trans hc)
  | _ => exact hs.stocked.mono hspan rfl rfl

/-! ### Records -/

theorem isAllocated_modifyHeaderAt
    {f : Header → Header}
    (hf : ∀ hd, (f hd).state = hd.state)
    (a : Arena) (x y : Nat) :
    (a.modifyHeaderAt x f).isAllocated y = a.isAllocated y := by
  unfold Arena.isAllocated
  rw [Arena.cell?_modifyHeaderAt]
  by_cases hy : y = x
  · subst hy
    rw [if_pos rfl]
    cases a.cell? y with
    | none => rfl
    | some c => simp [hf]
  · rw [if_neg hy]

/-- Flags and records stay in agreement under every change that leaves the table alone. -/
theorem Recorded.of_cellChange
    {a a' : Arena} {t : AddressTable (List SideRecord)} {p : Phase}
    (hr : Recorded a t)
    (hc : ∀ y, CellChange p l y (a.cell? y) (a'.cell? y))
    (hattach : ∀ y kind, l ≠ .attach y kind)
    (hfinalize : ∀ y, l ≠ .finalize y)
    (hcleanup : ∀ y, l ≠ .cleanup y) :
    Recorded a' t := by
  have hdead : ∀ y c, a.cell? y = some c → c.header.state ≠ .allocated → t.find? y = none := by
    intro y c hy hne
    refine hr.find?_eq_none ?_
    simp [Arena.isAllocated, hy, hne]
  have hgone : ∀ y, a.cell? y = none → t.find? y = none := by
    intro y hy
    refine hr.find?_eq_none ?_
    simp [Arena.isAllocated, hy]
  refine hr.of_cells (fun y c' hy => ?_) fun y r hy => ?_
  · have hchange := hc y
    rw [hy] at hchange
    cases ha : a.cell? y with
    | none =>
        rw [ha] at hchange
        cases hchange with
        | carved hl hhd =>
            rw [hhd]
            exact Or.inr ⟨rfl, hgone y ha⟩
        | born hl hhd =>
            rw [hhd]
            exact Or.inr ⟨Header.hasFlag_fresh _ _, hgone y ha⟩
    | some c =>
        rw [ha] at hchange
        cases hchange with
        | kept hhc =>
            cases hhc with
            | birth hne => exact Or.inr ⟨Header.hasFlag_fresh _ _, hdead y c ha hne⟩
            | attach kind => exact absurd rfl (hattach y kind)
            | finalize => exact absurd rfl (hfinalize y)
            | cleanup => exact absurd rfl (hcleanup y)
            | _ => exact Or.inl ⟨c, rfl, rfl⟩
  · obtain ⟨c, hcell, hst⟩ := Arena.isAllocated_iff.1 (hr.live y r hy).2
    have hflag : c.header.hasFlag Header.sideRecord = true := by
      rw [hr.flagged y c hcell, hy]
      rfl
    have hchange := hc y
    rw [hcell] at hchange
    refine Arena.isAllocated_iff.2 ?_
    cases hy' : a'.cell? y with
    | none =>
        rw [hy'] at hchange
        cases hchange with
        | removed ha hu hf =>
            rw [hf] at hflag
            cases hflag
    | some c' =>
        rw [hy'] at hchange
        cases hchange with
        | kept hhc =>
            refine ⟨_, rfl, ?_⟩
            cases hhc with
            | birth => rfl
            | park hs' hf =>
                rw [hf] at hflag
                cases hflag
            | uncache hs' =>
                rw [hst] at hs'
                cases hs'
            | reclaim hu hf =>
                rw [hf] at hflag
                cases hflag
            | _ => exact hst

/-- Setting or clearing the flag of one object together with its entry keeps the agreement. -/
theorem Recorded.update
    {a a' : Arena} {t t' : AddressTable (List SideRecord)}
    (hr : Recorded a t)
    (hother : ∀ y, y ≠ x → a'.cell? y = a.cell? y ∧ t'.find? y = t.find? y)
    (halloc : ∀ y, a'.isAllocated y = a.isAllocated y)
    (hflag : ∀ c, a'.cell? x = some c →
      (c.header.hasFlag Header.sideRecord = true ↔ (t'.find? x).isSome = true))
    (hlive : ∀ r, t'.find? x = some r → r ≠ [] ∧ a.isAllocated x = true) :
    Recorded a' t' := by
  refine ⟨fun y c hy => ?_, fun y r hy => ?_⟩
  · by_cases hyx : y = x
    · subst hyx
      exact hflag c hy
    · obtain ⟨hcell, hfind⟩ := hother y hyx
      rw [hfind]
      exact hr.flagged y c (hcell ▸ hy)
  · rw [halloc]
    by_cases hyx : y = x
    · subst hyx
      exact hlive r hy
    · exact hr.live y r ((hother y hyx).2 ▸ hy)

theorem attachRecord_eq
    (kind : RecordKind)
    (hx : h.arena.isAllocated x = true) :
    (h.attachRecord x kind).2.arena = h.arena.modifyHeaderAt x (·.setFlag Header.sideRecord) ∧
      (h.attachRecord x kind).2.records = (h.records.attach x kind).2 := by
  rw [attachRecord, if_pos hx]
  exact ⟨rfl, rfl⟩

@[simp] theorem records_resurrect (h : Heap) (x : Nat) :
    (h.resurrect x).records = (h.records.queueFinalizers x).2 := by
  unfold resurrect
  simp only
  split <;> rfl

theorem arena_resurrect (h : Heap) (x : Nat) :
    (h.resurrect x).arena =
      if (h.records.cleanups x).isEmpty then
        h.arena.modifyHeaderAt x (·.clearFlag Header.sideRecord)
      else h.arena := by
  unfold resurrect
  simp only [SideRecords.queueFinalizers_fst]
  cases (h.records.cleanups x).isEmpty <;> rfl

theorem flag_of_modifyHeaderAt
    {a : Arena} {f : Header → Header}
    (hc : (a.modifyHeaderAt x f).cell? x = some c) :
    ∃ d, a.cell? x = some d ∧ c.header = f d.header := by
  rw [Arena.cell?_modifyHeaderAt, if_pos rfl, Option.map_eq_some_iff] at hc
  obtain ⟨d, hd, rfl⟩ := hc
  exact ⟨d, hd, rfl⟩

theorem recorded_attachRecord
    {kind : RecordKind}
    (hs : h.Sound)
    (hx : h.arena.isAllocated x = true) :
    Recorded (h.attachRecord x kind).2.arena (h.attachRecord x kind).2.records.attached := by
  obtain ⟨ha, hr⟩ := attachRecord_eq kind hx
  have hself := SideRecords.attached_attach_self h.records x kind
  rw [ha, hr]
  refine hs.recorded.update (x := x)
    (fun y hy => ⟨?_, SideRecords.attached_attach_of_ne _ kind hy⟩)
    (isAllocated_modifyHeaderAt (fun hd => Header.state_setFlag hd _) _ _)
    (fun c hc => ?_) fun r hr => ?_
  · rw [Arena.cell?_modifyHeaderAt, if_neg hy]
  · obtain ⟨d, -, hd⟩ := flag_of_modifyHeaderAt hc
    rw [hd, hself]
    simp
  · rw [hself] at hr
    obtain rfl := Option.some.inj hr
    exact ⟨by simp, hx⟩

theorem recorded_resurrect (hs : h.Sound) (x : Nat) :
    Recorded (h.resurrect x).arena (h.resurrect x).records.attached := by
  have hself := SideRecords.attached_queueFinalizers_self h.records x
  rw [records_resurrect, arena_resurrect]
  cases hempty : (h.records.cleanups x).isEmpty with
  | false =>
      rw [hempty, if_neg Bool.false_ne_true] at hself
      rw [if_neg Bool.false_ne_true]
      have hne : h.records.cleanups x ≠ [] := by
        intro hnil
        rw [hnil] at hempty
        cases hempty
      -- The object keeps its cleanups, so it had an entry and was flagged.
      have hattached : ∃ r, h.records.attached.find? x = some r := by
        cases hfind : h.records.attached.find? x with
        | none => exact absurd (SideRecords.cleanups_of_attached_none hfind) hne
        | some r => exact ⟨r, rfl⟩
      obtain ⟨r, hfind⟩ := hattached
      refine hs.recorded.update (x := x)
        (fun y hy => ⟨rfl, SideRecords.attached_queueFinalizers_of_ne _ hy⟩) (fun _ => rfl)
        (fun c hc => ?_) fun r' hr' => ?_
      · rw [hs.recorded.flagged x c hc, hself, hfind]
        simp
      · rw [hself] at hr'
        obtain rfl := Option.some.inj hr'
        exact ⟨hne, (hs.recorded.live x r hfind).2⟩
  | true =>
      rw [hempty, if_pos rfl] at hself
      rw [if_pos rfl]
      refine hs.recorded.update (x := x)
        (fun y hy => ⟨?_, SideRecords.attached_queueFinalizers_of_ne _ hy⟩)
        (isAllocated_modifyHeaderAt (fun hd => Header.state_clearFlag hd _) _ _)
        (fun c hc => ?_) fun r hr => ?_
      · rw [Arena.cell?_modifyHeaderAt, if_neg hy]
      · obtain ⟨d, -, hd⟩ := flag_of_modifyHeaderAt hc
        rw [hd, hself]
        simp
      · rw [hself] at hr
        cases hr

theorem recorded_queueCleanups (hs : h.Sound) (x : Nat) :
    Recorded (h.arena.modifyHeaderAt x (·.clearFlag Header.sideRecord))
      (h.records.queueCleanups x).attached := by
  have hself := SideRecords.attached_queueCleanups_self h.records x
  refine hs.recorded.update (x := x)
    (fun y hy => ⟨?_, SideRecords.attached_queueCleanups_of_ne _ hy⟩)
    (isAllocated_modifyHeaderAt (fun hd => Header.state_clearFlag hd _) _ _)
    (fun c hc => ?_) fun r hr => ?_
  · rw [Arena.cell?_modifyHeaderAt, if_neg hy]
  · obtain ⟨d, -, hd⟩ := flag_of_modifyHeaderAt hc
    rw [hd, hself]
    simp
  · rw [hself] at hr
    cases hr

@[simp] theorem records_remember (h : Heap) (v : Nat) : (h.remember v).records = h.records := by
  unfold remember
  split <;> rfl

theorem records_copyBytes (h : Heap) (source target bytes : Nat) (sh : Shape) :
    (h.copyBytes source target bytes sh).records = h.records := by
  have hfold : ∀ (vs : List Nat) (g : Heap), (vs.foldl remember g).records = g.records := by
    intro vs
    induction vs with
    | nil => exact fun _ => rfl
    | cons v vs ih =>
        intro g
        rw [List.foldl_cons, ih, records_remember]
  cases sh with
  | scan => exact hfold _ _
  | noScan => rfl

theorem records_publish (h : Heap) (b k addr size : Nat) :
    (h.publish b k addr size).records = h.records := by
  unfold publish
  rfl

theorem records_begin (h : Heap) : h.resetCycle.nextPhase.2.records = h.records := by
  unfold nextPhase resetCycle modifyCollector
  rfl

theorem Tick.recorded
    (hs : h.Sound)
    (ht : Tick h l h') :
    Recorded h'.arena h'.records.attached := by
  have hkeep : h'.records.attached = h.records.attached →
      (∀ y kind, l ≠ .attach y kind) → (∀ y, l ≠ .finalize y) → (∀ y, l ≠ .cleanup y) →
      Recorded h'.arena h'.records.attached := by
    intro heq h₁ h₂ h₃
    rw [heq]
    exact hs.recorded.of_cellChange (ht.cellChange hs) h₁ h₂ h₃
  cases ht with
  | attach kind hx => exact recorded_attachRecord hs hx
  | finalize x => exact recorded_resurrect hs x
  | cleanup hf => exact recorded_queueCleanups hs _
  | still hst => exact hkeep (by rw [hst.records]) (by simp) (by simp) (by simp)
  | batch hr => exact hkeep hr (by simp) (by simp) (by simp)
  | store v hx hst hi =>
      exact hkeep (by rw [writeWord, records_remember]) (by simp) (by simp) (by simp)
  | copy source hx hst hb =>
      exact hkeep (by rw [records_copyBytes]) (by simp) (by simp) (by simp)
  | birthCell hx hne => exact hkeep (by rw [records_publish]) (by simp) (by simp) (by simp)
  | birthRun sh hn hc => exact hkeep (by rw [records_publish]) (by simp) (by simp) (by simp)
  | begin => exact hkeep (by rw [records_begin]) (by simp) (by simp) (by simp)
  | _ => exact hkeep rfl (by simp) (by simp) (by simp)

/-- Every elementary change keeps a heap sound. -/
theorem Tick.sound
    (hs : h.Sound)
    (ht : Tick h l h') :
    h'.Sound :=
  ⟨ht.layout hs, ht.stocked hs, ht.recorded hs⟩

end Heap

end EagerHeap
