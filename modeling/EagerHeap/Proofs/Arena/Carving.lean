import EagerHeap.Proofs.Arena.Layout
/-!
# Carving and releasing blocks

Blocks are carved for small cells, one at a time, or as a run for one large object, and the run of a
large object is released as a whole. Each of these changes keeps the layout of the arena and leaves
the cells of all other blocks alone.

Main results: `Layout.carveBlock`, `Layout.openRun` and `Layout.closeRun`.
-/

namespace EagerHeap

namespace Arena

variable {a a' : Arena} {x i j n : Nat} {c : Cell} {s : Span}

/-- What an address resolves to depends on its block alone. -/
theorem cell?_congr
    (hlimit : a'.pages.limit = a.pages.limit)
    (hb : a'.blocks[(x - start) / blockSize]? = a.blocks[(x - start) / blockSize]?) :
    a'.cell? x = a.cell? x := by
  have hcontains : a'.contains x = a.contains x := by
    unfold contains stop
    rw [hlimit]
  unfold cell?
  simp only [hcontains, hb]

theorem cell?_eq_none_of_block
    (h : a.blocks[(x - start) / blockSize]? = none) :
    a.cell? x = none := by
  cases hx : a.cell? x with
  | none => rfl
  | some c =>
      obtain ⟨-, b, hb, -⟩ := cell?_eq_some_iff.1 hx
      rw [h] at hb
      cases hb

theorem Layout.cell?_eq_none_of_hasRun
    (hl : a.Layout)
    (h : a.HasRun ((x - start) / blockSize) 0) :
    a.cell? x = none := by
  cases hx : a.cell? x with
  | none => rfl
  | some c =>
      rw [← block_of_cell? hx] at h
      rcases hl.cell?_cases hx with ⟨s, hs, -⟩ | ⟨n, sh, hr, hn, -⟩
      · exact absurd h hs.not_hasRun
      · exact absurd (HasRun.unique ⟨sh, hr⟩ h) (Nat.ne_of_gt hn)

theorem hasRun_congr (hb : a'.blocks[i]? = a.blocks[i]?) : a'.HasRun i n ↔ a.HasRun i n := by
  unfold HasRun outline?
  rw [hb]

theorem header?_congr {k : Nat} (hb : a'.blocks[i]? = a.blocks[i]?) :
    a'.header? i k = a.header? i k := by
  unfold header?
  rw [hb]

theorem getElem?_modifyBlock_of_ne (f : Block → Block) (h : j ≠ i) :
    (a.modifyBlock i f).blocks[j]? = a.blocks[j]? := by
  simp [modifyBlock, Array.getElem?_modify, h.symm]

theorem getElem?_modifyBlock_self {b : Block} (f : Block → Block) (h : a.blocks[i]? = some b) :
    (a.modifyBlock i f).blocks[i]? = some (f b) := by
  simp [modifyBlock, Array.getElem?_modify, h]

theorem size_modifyBlock (a : Arena) (i : Nat) (f : Block → Block) :
    (a.modifyBlock i f).blocks.size = a.blocks.size :=
  Array.size_modify

/-! ### A block of small cells -/

theorem getElem?_padded (blocks : Array Block) (m : Nat) (b : Block) (j : Nat) :
    (padded blocks m b)[j]? =
      if blocks.size ≤ j ∧ j < m then some b else blocks[j]? := by
  simp only [padded, Array.getElem?_append, Array.getElem?_replicate]
  by_cases hj : j < blocks.size
  · rw [if_pos hj, if_neg (by omega)]
  · rw [if_neg hj]
    by_cases hm : j < m
    · rw [if_pos (by omega), if_pos (by omega)]
    · rw [if_neg (by omega), if_neg (by omega), Array.getElem?_eq_none (Nat.le_of_not_lt hj)]

theorem not_hasRun_of_none (h : a.blocks[i]? = none) : ¬ a.HasRun i n := by
  rintro ⟨sh, hr⟩
  rw [outline?, h] at hr
  cases hr

/-- One more block of small cells keeps the layout. -/
theorem Layout.addSmall
    (hl : a.Layout)
    (hcarved : a'.blocks.size = a'.pages.next)
    (hinside : a'.pages.next ≤ a'.pages.limit)
    (hreleased : a'.pages.released = a.pages.released)
    (hnone : a.blocks[i]? = none)
    (hself : a'.blocks[i]? = some (.ofSpan s))
    (hother : ∀ j, j ≠ i → a'.blocks[j]? = a.blocks[j]?) :
    a'.Layout := by
  have hfree : ∀ j, a'.pages.Free j ↔ a.pages.Free j := by
    intro j
    unfold Pages.Free
    rw [hreleased]
  have hruns : ∀ j n, a'.HasRun j n ↔ a.HasRun j n := by
    intro j n
    by_cases hj : j = i
    · subst hj
      refine iff_of_false ?_ (not_hasRun_of_none hnone)
      rintro ⟨sh, hr⟩
      rw [outline?, hself] at hr
      cases hr
    · exact hasRun_congr (hother j hj)
  refine ⟨hcarved, hinside, hreleased ▸ hl.tidy, ?_, ?_, ?_, ?_, ?_⟩
  · intro j t cells q hb
    by_cases hj : j = i
    · subst hj
      rw [hself] at hb
      simp only [Block.ofSpan, Option.some.injEq, Block.small.injEq] at hb
      obtain ⟨rfl, rfl, -⟩ := hb
      exact Array.size_replicate
    · rw [hother j hj] at hb
      exact hl.full j t cells q hb
  · intro j hj
    exact (hruns j 0).2 (hl.spare j ((hfree j).1 hj))
  · intro j n k hr hlt hin
    obtain ⟨hzero, hnot⟩ := hl.tail j n k ((hruns j n).1 hr) hlt hin
    exact ⟨(hruns k 0).2 hzero, fun hk => hnot ((hfree k).1 hk)⟩
  · intro j hr
    rcases hl.owned j ((hruns j 0).1 hr) with hj | ⟨k, n, hrun, hin⟩
    · exact Or.inl ((hfree j).2 hj)
    · exact Or.inr ⟨k, n, (hruns k n).2 hrun, hin⟩
  · intro j n hr
    have hr' := (hruns j n).1 hr
    have hj : j ≠ i := by
      rintro rfl
      exact not_hasRun_of_none hnone hr'
    obtain ⟨hd, hhd, hstate⟩ := hl.head j n hr'
    exact ⟨hd, (header?_congr (hother j hj)).trans hhd, hstate⟩

/-- A block is carved at the end of the carved part, where there is room. -/
theorem carveBlock_eq_some
    (h : a.carveBlock s = (some i, a')) :
    i = a.pages.next ∧ a.pages.next < a.pages.limit ∧ a'.pages.next = a.pages.next + 1 := by
  rw [carveBlock] at h
  split at h
  · next hbump =>
      cases h
      obtain ⟨rfl, hroom, rfl⟩ := Pages.bump_eq_some hbump
      exact ⟨rfl, by omega, rfl⟩
  · cases h

/-- Carving a block for small cells adds its free cells and leaves all other blocks alone. -/
theorem Layout.carveBlock
    (hl : a.Layout)
    (h : a.carveBlock s = (some i, a')) :
    a'.Layout ∧ a'.memory = a.memory ∧ a'.pages.limit = a.pages.limit ∧
      a.blocks[i]? = none ∧ a'.blocks[i]? = some (.ofSpan s) ∧
      ∀ j, j ≠ i → a'.blocks[j]? = a.blocks[j]? := by
  unfold Arena.carveBlock at h
  cases hbump : a.pages.bump 1 with
  | none =>
      rw [hbump] at h
      cases h
  | some p =>
      obtain ⟨i', pages⟩ := p
      rw [hbump] at h
      cases h
      obtain ⟨rfl, hroom, rfl⟩ := Pages.bump_eq_some hbump
      have hnone : a.blocks[a.pages.next]? = none :=
        Array.getElem?_eq_none (Nat.le_of_eq hl.carved)
      have hself : (padded a.blocks (a.pages.next + 1) (.ofSpan s))[a.pages.next]? =
          some (.ofSpan s) := by
        rw [getElem?_padded, if_pos ⟨Nat.le_of_eq hl.carved, Nat.lt_succ_self _⟩]
      have hother : ∀ j, j ≠ a.pages.next →
          (padded a.blocks (a.pages.next + 1) (.ofSpan s))[j]? = a.blocks[j]? := by
        intro j hj
        rw [getElem?_padded, hl.carved, if_neg (by omega)]
      refine ⟨hl.addSmall ?_ ?_ rfl hnone hself hother, rfl, rfl, hnone, hself, hother⟩
      · simp only [padded, Array.size_append, Array.size_replicate, hl.carved]
        omega
      · have := hl.inside
        simp only
        omega

/-! ### A run for one large object -/

/-- The second arena results from the first one by taking `n` blocks from block `i` on. -/
structure RunTaken (a a' : Arena) (i n : Nat) : Prop where
  memory : a'.memory = a.memory
  limit : a'.pages.limit = a.pages.limit
  carved : a'.blocks.size = a'.pages.next
  inside : a'.pages.next ≤ a'.pages.limit
  tidy : Run.Tidy a'.pages.released
  taken : ∀ j, i ≤ j → j < i + n →
    (∃ hd sh, a'.blocks[j]? = some (.large hd 0 sh) ∧ hd.state = .free) ∧ ¬ a'.pages.Free j ∧
      (a.blocks[j]? = none ∨ a.pages.Free j)
  others : ∀ j, ¬ (i ≤ j ∧ j < i + n) →
    a'.blocks[j]? = a.blocks[j]? ∧ (a'.pages.Free j ↔ a.pages.Free j)

theorem Layout.runTaken
    (hl : a.Layout)
    (hn : 0 < n)
    (h : a.carveRun n = (some i, a')) :
    RunTaken a a' i n := by
  unfold carveRun at h
  cases hcarve : a.pages.carve n with
  | none =>
      rw [hcarve] at h
      cases h
  | some p =>
      obtain ⟨i', pages⟩ := p
      rw [hcarve] at h
      cases h
      have hspare : ∀ j, a.pages.Free j →
          ∃ hd sh, a.blocks[j]? = some (Block.large hd 0 sh) ∧ hd.state = .free := by
        intro j hj
        obtain ⟨hd, sh, hb⟩ := exists_getElem?_of_hasRun (hl.spare j hj)
        obtain ⟨hd', hhd, hstate⟩ := hl.head j 0 (hl.spare j hj)
        rw [header?, hb] at hhd
        obtain rfl := Option.some.inj hhd
        exact ⟨_, sh, hb, hstate⟩
      rcases Pages.carve_cases hl.tidy hcarve with
        ⟨hnext, hlimit, htidy, hin, hfree⟩ | ⟨rfl, hroom, rfl⟩
      · -- Released blocks exist already, so that no block is added.
        have hlast : i + n ≤ a.blocks.size := by
          obtain ⟨hd, sh, hb, -⟩ := hspare (i + n - 1) (hin _ (by omega) (by omega))
          have := (Array.getElem?_eq_some_iff.1 hb).1
          omega
        have hsame : padded a.blocks (i + n) .spare = a.blocks := by
          simp [padded, Nat.sub_eq_zero_of_le hlast]
        refine ⟨rfl, hlimit, ?_, ?_, htidy, ?_, ?_⟩
        · rw [hsame, hnext, hl.carved]
        · rw [hnext, hlimit]
          exact hl.inside
        · intro j hj hj'
          have hfreej := hin j hj hj'
          refine ⟨?_, fun hc => ((hfree j).1 hc).2 ⟨hj, hj'⟩, Or.inr hfreej⟩
          rw [hsame]
          exact hspare j hfreej
        · intro j hj
          rw [hsame]
          exact ⟨rfl, (hfree j).trans ⟨And.left, fun hc => ⟨hc, hj⟩⟩⟩
      · have hnone : ∀ j, a.pages.next ≤ j → a.blocks[j]? = none :=
          fun j hj => Array.getElem?_eq_none (hl.carved ▸ hj)
        refine ⟨rfl, rfl, ?_, ?_, hl.tidy, ?_, ?_⟩
        · simp only [padded, Array.size_append, Array.size_replicate, hl.carved]
          omega
        · have := hl.inside
          simp only
          omega
        · intro j hj hj'
          refine ⟨⟨{}, .noScan, ?_, rfl⟩, fun hc => ?_, Or.inl (hnone j hj)⟩
          · rw [getElem?_padded, if_pos ⟨hl.carved ▸ hj, hj'⟩]
            rfl
          · exact not_hasRun_of_none (hnone j hj) (hl.spare j hc)
        · intro j hj
          refine ⟨?_, Iff.rfl⟩
          rw [getElem?_padded, if_neg (hl.carved ▸ hj)]

theorem RunTaken.not_hasRun_of_mem
    {m : Nat}
    (ht : RunTaken a a' i n)
    (hl : a.Layout)
    (hj : i ≤ j ∧ j < i + n)
    (hr : a.HasRun j m) :
    m = 0 ∧ a.pages.Free j := by
  obtain ⟨-, -, hnone | hfree⟩ := ht.taken j hj.1 hj.2
  · exact absurd hr (not_hasRun_of_none hnone)
  · exact ⟨hr.unique (hl.spare j hfree), hfree⟩

/-- Making the first one of the taken blocks the head of a live run keeps the layout. -/
theorem Layout.openRun
    {a'' : Arena} {hd : Header} {sh : Shape}
    (hl : a.Layout)
    (hn : 0 < n)
    (ht : RunTaken a a' i n)
    (hpages : a''.pages = a'.pages)
    (hsize : a''.blocks.size = a'.blocks.size)
    (hself : a''.blocks[i]? = some (.large hd n sh))
    (hstate : hd.state = .allocated)
    (hother : ∀ j, j ≠ i → a''.blocks[j]? = a'.blocks[j]?) :
    a''.Layout := by
  have hfree : ∀ j, a''.pages.Free j ↔ a'.pages.Free j := fun j => by rw [hpages]
  have hhead : a''.HasRun i n := hasRun_of_getElem? hself
  have hin : ∀ j, i < j → j < i + n → a''.HasRun j 0 ∧ ¬ a''.pages.Free j := by
    intro j hj hj'
    obtain ⟨⟨hd', sh', hb, -⟩, hnot, -⟩ := ht.taken j (Nat.le_of_lt hj) hj'
    rw [← hother j (Nat.ne_of_gt hj)] at hb
    exact ⟨hasRun_of_getElem? hb, fun hc => hnot ((hfree j).1 hc)⟩
  have hout : ∀ j, ¬ (i ≤ j ∧ j < i + n) →
      a''.blocks[j]? = a.blocks[j]? ∧ (a''.pages.Free j ↔ a.pages.Free j) := by
    intro j hj
    obtain ⟨hb, hf⟩ := ht.others j hj
    have hne : j ≠ i := fun e => hj ⟨Nat.le_of_eq e.symm, by omega⟩
    exact ⟨(hother j hne).trans hb, (hfree j).trans hf⟩
  have houtside : ∀ j m, a''.HasRun j m → j ≠ i → m ≠ 0 → ¬ (i ≤ j ∧ j < i + n) := by
    intro j m hr hne hm hj
    exact hm (hr.unique (hin j (by omega) hj.2).1)
  refine ⟨?_, ?_, ?_, ?_, ?_, ?_, ?_, ?_⟩
  · rw [hsize, hpages, ht.carved]
  · rw [hpages]
    exact ht.inside
  · rw [hpages]
    exact ht.tidy
  · intro j t cells q hb
    by_cases hj : i ≤ j ∧ j < i + n
    · rcases Nat.eq_or_lt_of_le hj.1 with rfl | hlt
      · rw [hself] at hb
        cases hb
      · obtain ⟨hd', sh', hb'⟩ := exists_getElem?_of_hasRun (hin j hlt hj.2).1
        rw [hb'] at hb
        cases hb
    · rw [(hout j hj).1] at hb
      exact hl.full j t cells q hb
  · intro j hj
    by_cases hmem : i ≤ j ∧ j < i + n
    · exact absurd ((hfree j).1 hj) (ht.taken j hmem.1 hmem.2).2.1
    · obtain ⟨hb, hf⟩ := hout j hmem
      exact (hasRun_congr hb).2 (hl.spare j (hf.1 hj))
  · intro j m k hr hlt hk
    by_cases hj : j = i
    · subst hj
      obtain rfl := hr.unique hhead
      exact hin k hlt hk
    · have hmem := houtside j m hr hj (by omega)
      obtain ⟨hzero, hnot⟩ := hl.tail j m k ((hasRun_congr (hout j hmem).1).1 hr) hlt hk
      have hk' : ¬ (i ≤ k ∧ k < i + n) := fun hc => hnot (ht.not_hasRun_of_mem hl hc hzero).2
      obtain ⟨hb, hf⟩ := hout k hk'
      exact ⟨(hasRun_congr hb).2 hzero, fun hc => hnot (hf.1 hc)⟩
  · intro j hr
    by_cases hmem : i ≤ j ∧ j < i + n
    · rcases Nat.eq_or_lt_of_le hmem.1 with rfl | hlt
      · exact absurd (hr.unique hhead) (by omega)
      · exact Or.inr ⟨i, n, hhead, hlt, hmem.2⟩
    · obtain ⟨hb, hf⟩ := hout j hmem
      rcases hl.owned j ((hasRun_congr hb).1 hr) with hj | ⟨k, m, hrun, hk, hk'⟩
      · exact Or.inl (hf.2 hj)
      · refine Or.inr ⟨k, m, (hasRun_congr (hout k fun hc => ?_).1).2 hrun, hk, hk'⟩
        have := (ht.not_hasRun_of_mem hl hc hrun).1
        omega
  · intro j m hr
    by_cases hmem : i ≤ j ∧ j < i + n
    · rcases Nat.eq_or_lt_of_le hmem.1 with rfl | hlt
      · obtain rfl := hr.unique hhead
        refine ⟨hd, ?_, ?_⟩
        · rw [header?, hself]
          rfl
        · rw [if_neg (by omega)]
          exact hstate
      · obtain rfl := hr.unique (hin j hlt hmem.2).1
        obtain ⟨⟨hd', sh', hb, hfree'⟩, -⟩ := ht.taken j hmem.1 hmem.2
        rw [← hother j (Nat.ne_of_gt hlt)] at hb
        refine ⟨hd', ?_, ?_⟩
        · rw [header?, hb]
          rfl
        · rw [if_pos rfl]
          exact hfree'
    · obtain ⟨hb, -⟩ := hout j hmem
      obtain ⟨hd', hhd, hst⟩ := hl.head j m ((hasRun_congr hb).1 hr)
      exact ⟨hd', (header?_congr hb).trans hhd, hst⟩

/-- Opening a run gives one new cell and leaves the others alone. -/
theorem Layout.cell?_openRun
    {a'' : Arena} {hd : Header} {sh : Shape}
    (hl : a.Layout)
    (hl'' : a''.Layout)
    (hn : 0 < n)
    (ht : RunTaken a a' i n)
    (hpages : a''.pages = a'.pages)
    (hself : a''.blocks[i]? = some (.large hd n sh))
    (hother : ∀ j, j ≠ i → a''.blocks[j]? = a'.blocks[j]?) :
    a.cell? (blockBase i) = none ∧
      ∀ x, a''.cell? x =
        if x = blockBase i then
          some { block := i, index := 0, addr := blockBase i, size := n * blockSize, shape := sh,
                 isLarge := true, header := hd }
        else a.cell? x := by
  have hnone : ∀ x, i ≤ (x - start) / blockSize → (x - start) / blockSize < i + n →
      a.cell? x = none := by
    intro x hle hlt
    obtain ⟨-, -, hgone | hfree⟩ := ht.taken _ hle hlt
    · exact cell?_eq_none_of_block hgone
    · exact hl.cell?_eq_none_of_hasRun (hl.spare _ hfree)
  have hbase : a.cell? (blockBase i) = none := by
    apply hnone
    · rw [block_of_base]
    · rw [block_of_base]
      exact Nat.lt_add_of_pos_right hn
  refine ⟨hbase, fun x => ?_⟩
  have hout : a''.outline? i = some (.large {} n sh) := by
    rw [outline?, hself]
    rfl
  by_cases hx : x = blockBase i
  · obtain ⟨hd', hhd, -, hcell⟩ := hl''.cell?_large hout hn
    rw [header?, hself] at hhd
    obtain rfl := Option.some.inj hhd
    rw [if_pos hx, hx, hcell]
  · rw [if_neg hx]
    by_cases hmem : i ≤ (x - start) / blockSize ∧ (x - start) / blockSize < i + n
    · rw [hnone x hmem.1 hmem.2]
      rcases Nat.eq_or_lt_of_le hmem.1 with heq | hlt
      · cases hcell : a''.cell? x with
        | none => rfl
        | some c =>
            have hblock := block_of_cell? hcell
            rw [← heq] at hblock
            rcases hl''.cell?_cases hcell with ⟨s, hs, -⟩ | ⟨m, sh', -, -, -, hxb, -⟩
            · rw [hblock] at hs
              exact absurd ⟨sh, hout⟩ hs.not_hasRun
            · rw [hblock] at hxb
              exact absurd hxb hx
      · obtain ⟨⟨hd', sh', hb, -⟩, -⟩ := ht.taken _ hmem.1 hmem.2
        rw [← hother _ (Nat.ne_of_gt hlt)] at hb
        exact hl''.cell?_eq_none_of_hasRun (hasRun_of_getElem? hb)
    · refine cell?_congr ?_ ?_
      · rw [hpages, ht.limit]
      · have hne : (x - start) / blockSize ≠ i := by
          intro e
          rw [e] at hmem
          omega
        rw [hother _ hne, (ht.others _ hmem).1]

/-! ### The release of a run -/

/-- Releasing the blocks of a live run keeps the layout. -/
theorem Layout.closeRun
    {hd hd' : Header} {sh sh' : Shape}
    (hl : a.Layout)
    (hn : 0 < n)
    (hrun : a.blocks[i]? = some (.large hd n sh))
    (hpages : a'.pages = a.pages.release ⟨i, n⟩)
    (hsize : a'.blocks.size = a.blocks.size)
    (hself : a'.blocks[i]? = some (.large hd' 0 sh'))
    (hstate : hd'.state = .free)
    (hother : ∀ j, j ≠ i → a'.blocks[j]? = a.blocks[j]?) :
    a'.Layout := by
  have hhead : a.HasRun i n := hasRun_of_getElem? hrun
  have hzero : a'.HasRun i 0 := hasRun_of_getElem? hself
  have hnext : a'.pages.next = a.pages.next := by
    rw [hpages]
    rfl
  have hlimit : a'.pages.limit = a.pages.limit := by
    rw [hpages]
    rfl
  have hfree : ∀ j, a'.pages.Free j ↔ a.pages.Free j ∨ (i ≤ j ∧ j < i + n) := by
    intro j
    rw [hpages, Pages.free_release]
    rfl
  have hused : ∀ j, i ≤ j → j < i + n → ¬ a.pages.Free j := by
    intro j hj hj' hc
    rcases Nat.eq_or_lt_of_le hj with rfl | hlt
    · exact Nat.ne_of_gt hn (hhead.unique (hl.spare i hc))
    · exact (hl.tail i n j hhead hlt hj').2 hc
  have hold : ∀ j m, a'.HasRun j m → j ≠ i → a.HasRun j m :=
    fun j m hr hj => (hasRun_congr (hother j hj)).1 hr
  refine ⟨?_, ?_, ?_, ?_, ?_, ?_, ?_, ?_⟩
  · rw [hsize, hnext, hl.carved]
  · rw [hnext, hlimit]
    exact hl.inside
  · rw [hpages]
    exact Pages.tidy_release hl.tidy hn hused
  · intro j t cells q hb
    have hj : j ≠ i := by
      rintro rfl
      rw [hself] at hb
      cases hb
    rw [hother j hj] at hb
    exact hl.full j t cells q hb
  · intro j hj
    by_cases hji : j = i
    · rw [hji]
      exact hzero
    · refine (hasRun_congr (hother j hji)).2 ?_
      rcases (hfree j).1 hj with hj | ⟨hle, hlt⟩
      · exact hl.spare j hj
      · exact (hl.tail i n j hhead (by omega) hlt).1
  · intro j m k hr hlt hk
    have hj : j ≠ i := by
      rintro rfl
      have := hr.unique hzero
      omega
    have hr' := hold j m hr hj
    obtain ⟨hk0, hnot⟩ := hl.tail j m k hr' hlt hk
    have hki : k ≠ i := by
      rintro rfl
      exact Nat.ne_of_gt hn (hhead.unique hk0)
    refine ⟨(hasRun_congr (hother k hki)).2 hk0, fun hc => ?_⟩
    rcases (hfree k).1 hc with hc | ⟨hik, hkn⟩
    · exact hnot hc
    · -- A block cannot lie in the tails of two runs, as each of them has its head in front.
      rcases Nat.lt_or_gt_of_ne hj with hji | hji
      · exact Nat.ne_of_gt hn (hhead.unique (hl.tail j m i hr' hji (by omega)).1)
      · have := hr'.unique (hl.tail i n j hhead hji (by omega)).1
        omega
  · intro j hr
    by_cases hj : j = i
    · exact Or.inl ((hfree j).2 (Or.inr (by omega)))
    · rcases hl.owned j (hold j 0 hr hj) with hc | ⟨k, m, hrk, hkj, hjm⟩
      · exact Or.inl ((hfree j).2 (Or.inl hc))
      · by_cases hk : k = i
        · subst hk
          obtain rfl := hrk.unique hhead
          exact Or.inl ((hfree j).2 (Or.inr ⟨Nat.le_of_lt hkj, hjm⟩))
        · exact Or.inr ⟨k, m, (hasRun_congr (hother k hk)).2 hrk, hkj, hjm⟩
  · intro j m hr
    by_cases hj : j = i
    · subst hj
      obtain rfl := hr.unique hzero
      refine ⟨hd', ?_, ?_⟩
      · rw [header?, hself]
        rfl
      · rw [if_pos rfl]
        exact hstate
    · obtain ⟨hd'', hhd, hst⟩ := hl.head j m (hold j m hr hj)
      exact ⟨hd'', (header?_congr (hother j hj)).trans hhd, hst⟩

/-- Closing a run removes its cell and leaves the others alone. -/
theorem Layout.cell?_closeRun
    {hd hd' : Header} {sh sh' : Shape}
    (hl : a.Layout)
    (hl' : a'.Layout)
    (hrun : a.blocks[i]? = some (.large hd n sh))
    (hpages : a'.pages = a.pages.release ⟨i, n⟩)
    (hself : a'.blocks[i]? = some (.large hd' 0 sh'))
    (hother : ∀ j, j ≠ i → a'.blocks[j]? = a.blocks[j]?)
    (x : Nat) :
    a'.cell? x = if x = blockBase i then none else a.cell? x := by
  have hzero : a'.HasRun i 0 := hasRun_of_getElem? hself
  by_cases hi : (x - start) / blockSize = i
  · have hgone : a'.cell? x = none := hl'.cell?_eq_none_of_hasRun (hi ▸ hzero)
    rw [hgone]
    split
    · rfl
    · next hx =>
        cases hcell : a.cell? x with
        | none => rfl
        | some c =>
            have hblock := (block_of_cell? hcell).trans hi
            rcases hl.cell?_cases hcell with ⟨s, hs, -⟩ | ⟨m, sh'', -, -, -, hxb, -⟩
            · rw [hblock] at hs
              exact absurd (hasRun_of_getElem? hrun) hs.not_hasRun
            · rw [hblock] at hxb
              exact absurd hxb hx
  · have hx : x ≠ blockBase i := by
      rintro rfl
      exact hi (block_of_base i)
    rw [if_neg hx]
    refine cell?_congr ?_ (hother _ hi)
    rw [hpages]
    rfl

end Arena

end EagerHeap
