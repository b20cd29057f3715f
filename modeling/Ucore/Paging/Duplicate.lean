import Mathlib.Data.Finset.Max
import Ucore.Paging.Unmap

/-!
# Copying mappings

`Copied s s' dst src P`: the pages `P` of `src` have got copies in `dst`, on frames that were free, and
nothing else has changed.  It holds of one turn of `copy_range` and composes, because the frames of
the copies are no longer free for the pages that follow.

`pagesNeeded` counts what `copy_range` allocates: the copies themselves, and the tables and directory
pages that `dst` does not have yet.
-/

namespace Ucore.Paging

open Cow (NPTEENTRY PGSIZE PTE_U PTE_USER PTE_V PTE_W Perm Pte has lt_nextRegion nextRegion pteCreate)

variable {alloc : Allocator} {s s' s'' : State} {a b p q f dst src start stop : ℕ}
  {P Q : Finset ℕ}

/-- The counters are not below the number of mappings, in any address space, and those of free pages
are zero. -/
structure Counted (s : State) : Prop where
  covered : ∀ a P, Covered s a P
  free : ∀ f ∈ s.free, s.ref f = 0

theorem Counted.not_free (h : Counted s) (hx : mapping s a p = some f) : f ∉ s.free := by
  intro hf
  have hle := h.covered a {p} f
  rw [mappingsOf_singleton, if_pos hx, h.free f hf, Finset.card_singleton] at hle
  exact absurd hle (by decide)

/-- The pages `P` of `src` have copies in `dst`. -/
structure Copied (s s' : State) (dst src : ℕ) (P : Finset ℕ) : Prop where
  fresh : ∀ p ∈ P, ∃ f, mapping s' dst p = some f ∧ f ∈ s.free ∧ f ∉ s'.free ∧ s'.ref f = 1 ∧
    s'.data f = s.data (s.pte src p).ppn
  perm : ∀ p ∈ P, (s'.pte dst p).flags = (s.pte src p).flags &&& PTE_USER
  distinct : ∀ p ∈ P, ∀ q ∈ P, mapping s' dst p = mapping s' dst q → p = q
  pte : ∀ b q, (b, q) ∉ P.image (Prod.mk dst) → s'.pte b q = s.pte b q
  others : ∀ b, b ≠ dst → s'.pgdir b = s.pgdir b
  ref : ∀ f, f ∉ s.free ∨ f ∈ s'.free → s'.ref f = s.ref f
  data : ∀ f, f ∉ s.free → s'.data f = s.data f
  free : s'.free ⊆ s.free
  freed : s'.freed = s.freed

theorem Copied.refl (s : State) (dst src : ℕ) : Copied s s dst src ∅ :=
  ⟨nofun, nofun, nofun, fun _ _ _ => rfl, fun _ _ => rfl, fun _ _ => rfl, fun _ _ => rfl,
    subset_rfl, rfl⟩

theorem notMem_image (h : b ≠ dst ∨ q ∉ P) : (b, q) ∉ P.image (Prod.mk dst) := by
  intro hmem
  obtain ⟨p, hp, heq⟩ := Finset.mem_image.mp hmem
  obtain ⟨rfl, rfl⟩ := Prod.mk.inj heq
  rcases h with h | h
  · exact h rfl
  · exact h hp

theorem Copied.pte_src (h : Copied s s' dst src P) (hne : src ≠ dst) (p : ℕ) :
    s'.pte src p = s.pte src p :=
  h.pte src p (notMem_image (Or.inl hne))

/-- **First `P`, then `Q`.**  The copies of `P` are on frames that are not free for `Q`. -/
theorem Copied.trans (h₁ : Copied s s' dst src P) (h₂ : Copied s' s'' dst src Q) (hne : src ≠ dst)
    (hPQ : Disjoint P Q) (hsrc : ∀ q ∈ Q, (s.pte src q).ppn ∉ s.free) :
    Copied s s'' dst src (P ∪ Q) := by
  have hkeep : ∀ p ∈ P, s''.pte dst p = s'.pte dst p := fun p hp =>
    h₂.pte dst p (notMem_image (Or.inr (Finset.disjoint_left.mp hPQ hp)))
  have hmap : ∀ p ∈ P, mapping s'' dst p = mapping s' dst p := fun p hp =>
    mapping_congr (hkeep p hp)
  -- a frame of `P` is gone from the free pages, a frame of `Q` is taken from them
  have hapart : ∀ p ∈ P, ∀ q ∈ Q, mapping s'' dst p ≠ mapping s'' dst q := by
    intro p hp q hq heq
    obtain ⟨f, hf, -, hnot, -⟩ := h₁.fresh p hp
    obtain ⟨g, hg, hmem, -⟩ := h₂.fresh q hq
    rw [hmap p hp, hf, hg] at heq
    exact hnot (Option.some.inj heq ▸ hmem)
  refine ⟨fun p hp => ?_, fun p hp => ?_, fun p hp q hq heq => ?_, fun b q hbq => ?_,
    fun b hb => (h₂.others b hb).trans (h₁.others b hb), fun f hf => ?_, fun f hf => ?_,
    h₂.free.trans h₁.free, h₂.freed.trans h₁.freed⟩
  · rcases Finset.mem_union.mp hp with hp | hp
    · obtain ⟨f, hf, hfree, hnot, href, hdata⟩ := h₁.fresh p hp
      exact ⟨f, (hmap p hp).trans hf, hfree, fun hc => hnot (h₂.free hc),
        (h₂.ref f (Or.inl hnot)).trans href, (h₂.data f hnot).trans hdata⟩
    · obtain ⟨f, hf, hfree, hnot, href, hdata⟩ := h₂.fresh p hp
      refine ⟨f, hf, h₁.free hfree, hnot, href, ?_⟩
      rw [hdata, h₁.pte_src hne, h₁.data _ (hsrc p hp)]
  · rcases Finset.mem_union.mp hp with hp | hp
    · rw [hkeep p hp, h₁.perm p hp]
    · rw [h₂.perm p hp, h₁.pte_src hne]
  · rcases Finset.mem_union.mp hp with hp | hp
    · rcases Finset.mem_union.mp hq with hq | hq
      · rw [hmap p hp, hmap q hq] at heq
        exact h₁.distinct p hp q hq heq
      · exact absurd heq (hapart p hp q hq)
    · rcases Finset.mem_union.mp hq with hq | hq
      · exact absurd heq.symm (hapart q hq p hp)
      · exact h₂.distinct p hp q hq heq
  · rw [Finset.image_union, Finset.mem_union, not_or] at hbq
    rw [h₂.pte b q hbq.2, h₁.pte b q hbq.1]
  · have hf₁ : f ∉ s.free ∨ f ∈ s'.free := hf.imp_right fun h => h₂.free h
    have hf₂ : f ∉ s'.free ∨ f ∈ s''.free := hf.imp_left fun h hc => h (h₁.free hc)
    exact (h₂.ref f hf₂).trans (h₁.ref f hf₁)
  · exact (h₂.data f fun hc => hf (h₁.free hc)).trans (h₁.data f hf)

/-! ### One page -/

theorem flags_pteCreate (fl : Perm) (h : has fl PTE_V = true) (page : ℕ) :
    (pteCreate page (PTE_V ||| (fl &&& PTE_USER))).flags = fl &&& PTE_USER := by
  show PTE_V ||| (PTE_V ||| (fl &&& PTE_USER)) = fl &&& PTE_USER
  revert fl
  decide

/-- The directory pages and tables of `a` that are there stay. -/
structure KeepsTables (s s' : State) (a : ℕ) : Prop where
  dir : ∀ i, (s.pgdir a i).isSome → (s'.pgdir a i).isSome
  table : ∀ q, (s.table a q).isSome → (s'.table a q).isSome

/-- **One turn of `copy_range`.** -/
theorem copyPage_spec (hne : src ≠ dst) (hfree : ∀ f ∈ s.free, s.ref f = 0)
    (hsrc : has (s.pte src p).flags PTE_V = true) (hppn : (s.pte src p).ppn ∉ s.free)
    (hdst : mapping s dst p = none) (hserves : Serves alloc (missing s dst p + 1) s.free) :
    ∃ s', copyPage alloc dst src p s = some (0, s') ∧ Copied s s' dst src {p} ∧
      KeepsTables s s' dst ∧ (s'.pgdir dst (pdx1 p)).isSome ∧ (s'.table dst p).isSome ∧
      Takes alloc (missing s dst p + 1) s.free s'.free := by
  obtain ⟨s₁, hget, hg, hd, ht, htakes⟩ := getPte_spec (hserves.mono (Nat.le_add_right _ 1))
  obtain ⟨npage, hnpage, halloc, htake⟩ := allocPage_spec (n := 0) (hserves.rest htakes)
  have hv := hsrc
  rw [← hg.pte src p] at hv
  have hnfree : npage ∈ s.free := hg.free hnpage
  -- the new frame gets the bytes of the old one
  obtain ⟨t, ht', hpgdir, href, hdata, hfree', hfreed⟩ : ∃ t : State,
      t = ({ s₁ with free := s₁.free.erase npage } : State).setData npage
        (s₁.data (s₁.pte src p).ppn) ∧ t.pgdir = s₁.pgdir ∧ t.ref = s₁.ref ∧
        t.data = Function.update s₁.data npage (s₁.data (s₁.pte src p).ppn) ∧
        t.free = s₁.free.erase npage ∧ t.freed = s₁.freed :=
    ⟨_, rfl, rfl, rfl, rfl, rfl, rfl⟩
  have htab : t.table = s₁.table := by
    funext b q
    simp only [State.table, hpgdir]
  have hpte : ∀ b q, t.pte b q = s.pte b q := by
    intro b q
    rw [← hg.pte b q]
    simp only [State.pte, htab]
  obtain ⟨s', hins, hi⟩ := pageInsert_spec alloc npage ((s₁.pte src p).flags &&& PTE_USER)
    (s := t) (a := dst) (p := p) (by rw [htab]; exact ht) ((mapping_congr (hpte dst p)).trans hdst)
  have hflags := flags_pteCreate (s₁.pte src p).flags hv npage
  have hself : s'.pte dst p = pteCreate npage (PTE_V ||| ((s₁.pte src p).flags &&& PTE_USER)) := by
    rw [hi.pte, if_pos ⟨rfl, rfl⟩]
  have hdir : ∀ i, (s'.pgdir dst i).isSome = (s₁.pgdir dst i).isSome := by
    intro i
    rw [← hpgdir]
    simpa using congrArg Option.isSome (hi.tables.dir dst i)
  have htable : ∀ q, (s'.table dst q).isSome = (s₁.table dst q).isSome := by
    intro q
    rw [hi.tables.isSome, htab]
  refine ⟨s', ?_, ⟨fun q hq => ?_, fun q hq => ?_, fun q hq r hr _ => ?_, fun b q hbq => ?_,
    fun b hb => ?_, fun f hf => ?_, fun f hf => ?_, ?_, ?_⟩, ⟨fun i hi' => ?_, fun q hq => ?_⟩, ?_,
    ?_, ?_⟩
  · rw [copyPage, hget]
    simp only [halloc, ← ht', hins, if_true]
  · obtain rfl := Finset.mem_singleton.mp hq
    refine ⟨npage, ?_, hnfree, ?_, ?_, ?_⟩
    · have hand : ∀ fl : Perm, has fl PTE_V = true → has (fl &&& PTE_USER) PTE_V = true := by
        decide
      rw [mapping_eq_some, hself, hflags]
      exact ⟨hand _ hv, rfl⟩
    · rw [hi.free, hfree']
      exact Finset.notMem_erase _ _
    · rw [hi.ref, Function.update_self, href, hg.ref npage (Or.inr hnpage), hfree npage hnfree]
      rfl
    · rw [hi.data, hdata, Function.update_self, hg.data, hg.pte]
  · obtain rfl := Finset.mem_singleton.mp hq
    rw [hself, hflags, hg.pte]
  · rw [Finset.mem_singleton.mp hq, Finset.mem_singleton.mp hr]
  · rw [hi.pte, hpte, if_neg]
    rintro ⟨rfl, rfl⟩
    exact hbq (Finset.mem_image_of_mem _ (Finset.mem_singleton_self q))
  · rw [hi.others b hb, hpgdir, hg.others b hb]
  · rw [hi.free, hfree'] at hf
    have hfn : f ≠ npage := by
      rintro rfl
      rcases hf with hf | hf
      · exact hf hnfree
      · exact Finset.notMem_erase _ _ hf
    rw [hi.ref, Function.update_of_ne hfn, href]
    exact hg.ref f (hf.imp_right Finset.mem_of_mem_erase)
  · have hfn : f ≠ npage := fun he => hf (he ▸ hnfree)
    rw [hi.data, hdata, Function.update_of_ne hfn, hg.data]
  · rw [hi.free, hfree']
    exact (Finset.erase_subset _ _).trans hg.free
  · rw [hi.freed, hfreed, hg.freed]
  · rw [hdir]
    exact hg.dir i hi'
  · rw [htable]
    exact hg.table q hq
  · rw [hdir]
    exact hd
  · rw [htable]
    exact ht
  · rw [hi.free, hfree']
    exact htakes.trans htake

/-! ### What the copy needs -/

/-- The pages in `[start, stop)` that `a` maps. -/
def mappedPages (s : State) (a start stop : ℕ) : Finset ℕ :=
  (Finset.Ico start stop).filter fun p => (mapping s a p).isSome

theorem mem_mappedPages :
    p ∈ mappedPages s a start stop ↔ (start ≤ p ∧ p < stop) ∧ (mapping s a p).isSome := by
  rw [mappedPages, Finset.mem_filter, Finset.mem_Ico]

/-- The directory pages that `a` lacks for `P`. -/
def missingDirs (s : State) (a : ℕ) (P : Finset ℕ) : Finset ℕ :=
  (P.image pdx1).filter fun i => (s.pgdir a i).isNone

/-- The regions of `P` for which `a` lacks a table. -/
def missingTables (s : State) (a : ℕ) (P : Finset ℕ) : Finset ℕ :=
  (P.image (· / NPTEENTRY)).filter fun r => (s.table a (r * NPTEENTRY)).isNone

/-- The pages that `copy_range` allocates. -/
def pagesNeeded (s : State) (dst src start stop : ℕ) : ℕ :=
  (mappedPages s src start stop).card + (missingDirs s dst (mappedPages s src start stop)).card +
    (missingTables s dst (mappedPages s src start stop)).card

theorem card_add_le {A B : Finset ℕ} {x : ℕ} {c : Bool} (hsub : A ⊆ B)
    (hx : c = false → x ∈ B ∧ x ∉ A) : A.card + (if c then 0 else 1) ≤ B.card := by
  cases c with
  | true => exact Finset.card_le_card hsub
  | false =>
    obtain ⟨hB, hA⟩ := hx rfl
    simp only [Bool.false_eq_true, if_false]
    rw [← Finset.card_insert_of_notMem hA]
    exact Finset.card_le_card (Finset.insert_subset hB hsub)

theorem table_region (s : State) (a p : ℕ) : s.table a (p / NPTEENTRY * NPTEENTRY) = s.table a p :=
  table_congr s a (Nat.mul_div_cancel _ (by decide))

theorem mem_missingDirs (hp : p ∈ P) (h : (s.pgdir a (pdx1 p)).isSome = false) :
    pdx1 p ∈ missingDirs s a P := by
  refine Finset.mem_filter.mpr ⟨Finset.mem_image_of_mem _ hp, ?_⟩
  rw [← Option.not_isSome, h]
  rfl

theorem mem_missingTables (hp : p ∈ P) (h : (s.table a p).isSome = false) :
    p / NPTEENTRY ∈ missingTables s a P := by
  refine Finset.mem_filter.mpr ⟨Finset.mem_image_of_mem _ hp, ?_⟩
  rw [table_region, ← Option.not_isSome, h]
  rfl

theorem missing_lt_pagesNeeded (hp : p ∈ mappedPages s src start stop) :
    missing s dst p < pagesNeeded s dst src start stop := by
  have hpages : 0 < (mappedPages s src start stop).card := Finset.card_pos.mpr ⟨p, hp⟩
  have hdirs := card_add_le (A := ∅) (B := missingDirs s dst (mappedPages s src start stop))
    (x := pdx1 p) (c := (s.pgdir dst (pdx1 p)).isSome) (Finset.empty_subset _)
    fun hc => ⟨mem_missingDirs hp hc, Finset.notMem_empty _⟩
  have htables := card_add_le (A := ∅) (B := missingTables s dst (mappedPages s src start stop))
    (x := p / NPTEENTRY) (c := (s.table dst p).isSome) (Finset.empty_subset _)
    fun hc => ⟨mem_missingTables hp hc, Finset.notMem_empty _⟩
  simp only [pagesNeeded, missing, Finset.card_empty] at *
  omega

theorem mappedPages_step (hlt : start < stop) (hsome : (mapping s src start).isSome)
    (hmap : ∀ q, mapping s' src q = mapping s src q) :
    mappedPages s src start stop = insert start (mappedPages s' src (start + 1) stop) := by
  ext q
  rw [Finset.mem_insert, mem_mappedPages, mem_mappedPages, hmap]
  by_cases hq : q = start
  · subst hq
    exact iff_of_true ⟨⟨le_rfl, hlt⟩, hsome⟩ (Or.inl rfl)
  · rw [or_iff_right hq]
    exact and_congr_left fun _ => by omega

/-- After the first page the need has gone down by what the page took. -/
theorem pagesNeeded_step (hlt : start < stop) (hsome : (mapping s src start).isSome)
    (hmap : ∀ q, mapping s' src q = mapping s src q) (hk : KeepsTables s s' dst)
    (hd : (s'.pgdir dst (pdx1 start)).isSome) (ht : (s'.table dst start).isSome) :
    pagesNeeded s' dst src (start + 1) stop + (missing s dst start + 1) ≤
      pagesNeeded s dst src start stop := by
  have hpages := mappedPages_step hlt hsome hmap
  have hnot : start ∉ mappedPages s' src (start + 1) stop := fun hc => by
    have := (mem_mappedPages.mp hc).1.1
    omega
  have hcard : (mappedPages s src start stop).card =
      (mappedPages s' src (start + 1) stop).card + 1 := by
    rw [hpages, Finset.card_insert_of_notMem hnot]
  have hstart : start ∈ mappedPages s src start stop := hpages ▸ Finset.mem_insert_self _ _
  have hsub : mappedPages s' src (start + 1) stop ⊆ mappedPages s src start stop :=
    hpages ▸ Finset.subset_insert _ _
  have hdirs : (missingDirs s' dst (mappedPages s' src (start + 1) stop)).card +
      (if (s.pgdir dst (pdx1 start)).isSome then 0 else 1) ≤
        (missingDirs s dst (mappedPages s src start stop)).card := by
    refine card_add_le (x := pdx1 start) (fun i hi => ?_) fun hc =>
      ⟨mem_missingDirs hstart hc, fun hmem => ?_⟩
    · obtain ⟨hi, hnone⟩ := Finset.mem_filter.mp hi
      refine Finset.mem_filter.mpr ⟨Finset.image_subset_image hsub hi, ?_⟩
      cases hdi : s.pgdir dst i with
      | none => rfl
      | some d =>
        have := hk.dir i (by rw [hdi]; rfl)
        rw [Option.isSome_iff_ne_none] at this
        exact absurd (Option.isNone_iff_eq_none.mp hnone) this
    · have hnone := (Finset.mem_filter.mp hmem).2
      rw [← Option.not_isSome, hd] at hnone
      exact nomatch hnone
  have htables : (missingTables s' dst (mappedPages s' src (start + 1) stop)).card +
      (if (s.table dst start).isSome then 0 else 1) ≤
        (missingTables s dst (mappedPages s src start stop)).card := by
    refine card_add_le (x := start / NPTEENTRY) (fun r hr => ?_) fun hc =>
      ⟨mem_missingTables hstart hc, fun hmem => ?_⟩
    · obtain ⟨hr, hnone⟩ := Finset.mem_filter.mp hr
      refine Finset.mem_filter.mpr ⟨Finset.image_subset_image hsub hr, ?_⟩
      cases hdr : s.table dst (r * NPTEENTRY) with
      | none => rfl
      | some d =>
        have := hk.table (r * NPTEENTRY) (by rw [hdr]; rfl)
        rw [Option.isSome_iff_ne_none] at this
        exact absurd (Option.isNone_iff_eq_none.mp hnone) this
    · have hnone := (Finset.mem_filter.mp hmem).2
      rw [table_region, ← Option.not_isSome, ht] at hnone
      exact nomatch hnone
  simp only [pagesNeeded, missing] at *
  omega

/-! ### `copy_range` -/

/-- **The loop of `copy_range`**, where it gets the pages it needs. -/
theorem copyLoop_spec (hne : src ≠ dst) : ∀ k start s, stop ≤ start + k →
    (∀ f ∈ s.free, s.ref f = 0) →
    (∀ p f, mapping s src p = some f → f ∉ s.free) →
    (∀ p, start ≤ p → p < stop → mapping s dst p = none) →
    Serves alloc (pagesNeeded s dst src start stop) s.free →
    ∃ s', copyLoop alloc dst src stop k start s = some (0, s') ∧
      Copied s s' dst src (mappedPages s src start stop) := by
  intro k
  induction k with
  | zero =>
    intro start s hk _ _ _ _
    have hempty : mappedPages s src start stop = ∅ := by
      rw [mappedPages, Finset.Ico_eq_empty (by omega), Finset.filter_empty]
    rw [hempty]
    exact ⟨s, rfl, Copied.refl s dst src⟩
  | succ k ih =>
    intro start s hk hfree hsrc hdst hserves
    by_cases hlt : start < stop
    swap
    · have hempty : mappedPages s src start stop = ∅ := by
        rw [mappedPages, Finset.Ico_eq_empty hlt, Finset.filter_empty]
      rw [hempty]
      exact ⟨s, by rw [copyLoop, if_neg hlt], Copied.refl s dst src⟩
    -- the rest of the loop, after pages that `src` does not map
    have hskip : ∀ start', start < start' →
        (∀ q, start ≤ q → q < start' → mapping s src q = none) →
        ∃ s', copyLoop alloc dst src stop k start' s = some (0, s') ∧
          Copied s s' dst src (mappedPages s src start stop) := by
      intro start' hlt' hnone
      have heq : mappedPages s src start stop = mappedPages s src start' stop := by
        ext q
        rw [mem_mappedPages, mem_mappedPages]
        refine and_congr_left fun hq => ?_
        have hge : start ≤ q → start' ≤ q := fun h₁ => Nat.le_of_not_lt fun h₂ => by
          rw [hnone q h₁ h₂] at hq
          exact nomatch hq
        omega
      simp only [pagesNeeded, heq] at hserves ⊢
      exact ih start' s (by omega) hfree hsrc (fun p h₁ => hdst p (by omega)) hserves
    rw [copyLoop, if_pos hlt]
    cases ht : s.table src start with
    | none =>
      exact hskip (nextRegion start) (lt_nextRegion start) fun q h₁ h₂ =>
        mapping_of_region ht h₁ h₂
    | some pt =>
      cases hx : mapping s src start with
      | none =>
        simp only [mapping_eq_none.mp hx, Bool.false_eq_true, if_false]
        refine hskip (start + 1) (Nat.lt_succ_self _) fun q h₁ h₂ => ?_
        have hq : q = start := by omega
        rw [hq, hx]
      | some f =>
        obtain ⟨hv, hppn⟩ := mapping_eq_some.mp hx
        have hsome : (mapping s src start).isSome := by
          rw [hx]
          rfl
        have hstart : start ∈ mappedPages s src start stop :=
          mem_mappedPages.mpr ⟨⟨le_rfl, hlt⟩, hsome⟩
        obtain ⟨s₁, hcopy, hc, hk', hd, ht', htakes⟩ := copyPage_spec hne hfree hv
          (hppn ▸ hsrc start f hx) (hdst start le_rfl hlt)
          (hserves.mono (missing_lt_pagesNeeded hstart))
        simp only [hv, if_true, hcopy]
        have hmap : ∀ q, mapping s₁ src q = mapping s src q := fun q =>
          mapping_congr (hc.pte_src hne q)
        have hle := pagesNeeded_step hlt hsome hmap hk' hd ht'
        rw [Nat.add_comm] at hle
        have hdst₁ : ∀ p, start + 1 ≤ p → p < stop → mapping s₁ dst p = none := by
          intro p h₁ h₂
          have hp : p ∉ ({start} : Finset ℕ) := by
            rw [Finset.mem_singleton]
            omega
          rw [mapping_congr (hc.pte dst p (notMem_image (Or.inr hp)))]
          exact hdst p (by omega) h₂
        obtain ⟨s', hloop, hrest⟩ := ih (start + 1) s₁ (by omega)
          (fun g hg => (hc.ref g (Or.inr hg)).trans (hfree g (hc.free hg)))
          (fun p g hg hmem => hsrc p g ((hmap p).symm.trans hg) (hc.free hmem)) hdst₁
          ((hserves.mono hle).rest htakes)
        have hpages : mappedPages s src start stop =
            {start} ∪ mappedPages s₁ src (start + 1) stop := by
          rw [mappedPages_step hlt hsome hmap]
          rfl
        have hdisj : Disjoint {start} (mappedPages s₁ src (start + 1) stop) := by
          rw [Finset.disjoint_singleton_left, mem_mappedPages]
          omega
        refine ⟨s', hloop, ?_⟩
        rw [hpages]
        refine hc.trans hrest hne hdisj fun q hq => ?_
        obtain ⟨g, hg⟩ := Option.isSome_iff_exists.mp (mem_mappedPages.mp hq).2
        rw [hmap] at hg
        exact (mapping_eq_some.mp hg).2 ▸ hsrc q g hg

/-- **`copy_range` and `unmap_range` are exact.**  Where it gets the pages it needs, `copy_range` maps
in `dst` the pages of the range that `src` maps, and `unmap_range` takes away exactly the valid entries
of the range. -/
theorem copyRange_unmapRange_exact (hs : Counted s) (hr : UserRange start stop) :
    (∀ alloc dst src, src ≠ dst →
      (∀ p ∈ Finset.Ico (start / PGSIZE) (stop / PGSIZE), mapping s dst p = none) →
      Serves alloc (pagesNeeded s dst src (start / PGSIZE) (stop / PGSIZE)) s.free →
      ∃ s', copyRange alloc dst src start stop s = some (0, s') ∧
        (∀ p ∈ Finset.Ico (start / PGSIZE) (stop / PGSIZE),
          (mapping s' dst p).isSome = (mapping s src p).isSome) ∧
        Copied s s' dst src (mappedPages s src (start / PGSIZE) (stop / PGSIZE))) ∧
    ∀ a, ∃ s', unmapRange a start stop s = some s' ∧
      Unmapped s s' a (Finset.Ico (start / PGSIZE) (stop / PGSIZE)) := by
  refine ⟨fun alloc dst src hne hdst hserves => ?_, fun a => unmapRange_spec hr (hs.covered a _)⟩
  obtain ⟨s', hloop, hc⟩ := copyLoop_spec hne (stop / PGSIZE - start / PGSIZE)
    (start / PGSIZE) s (by omega) hs.free (fun p f hx => hs.not_free hx)
    (fun p h₁ h₂ => hdst p (Finset.mem_Ico.mpr ⟨h₁, h₂⟩)) hserves
  refine ⟨s', ?_, fun p hp => ?_, hc⟩
  · rw [copyRange, if_pos hr]
    exact hloop
  · by_cases hx : (mapping s src p).isSome
    · have hmem : p ∈ mappedPages s src (start / PGSIZE) (stop / PGSIZE) :=
        mem_mappedPages.mpr ⟨Finset.mem_Ico.mp hp, hx⟩
      obtain ⟨f, hf, -⟩ := hc.fresh p hmem
      rw [hf, hx]
      rfl
    · have hnot : p ∉ mappedPages s src (start / PGSIZE) (stop / PGSIZE) := fun hmem =>
        hx (mem_mappedPages.mp hmem).2
      rw [mapping_congr (hc.pte dst p (notMem_image (Or.inr hnot))), hdst p hp,
        Bool.eq_false_of_not_eq_true hx]
      rfl

/-- Two pages of user memory in address space 0, with a region without a table between them. -/
def twoPages : State where
  pgdir := fun a i => if a = 0 ∧ i = 0 then
    some ⟨100, fun j => if j.val = 1 ∨ j.val = 3 then
      some ⟨100 + j.val, fun k => if k.val = 0 then ⟨6 + j.val, PTE_V ||| PTE_U ||| PTE_W⟩ else Pte.zero⟩
      else none⟩
    else none
  ref := fun f => if f ∈ ({7, 9, 100, 101, 103} : Finset ℕ) then 1 else 0
  data := fun f _ => UInt8.ofNat f
  free := {10, 11, 12, 13, 14}
  freed := []

/-- The first of the free pages. -/
def firstFit : Allocator := fun free =>
  if h : free.Nonempty then some ⟨free.min' h, free.min'_mem h⟩ else none

theorem firstFit_isSome (free : Finset ℕ) (h : free.Nonempty) : (firstFit free).isSome := by
  rw [firstFit, dif_pos h]
  rfl

theorem twoPages_pte (a p : ℕ) : twoPages.pte a p =
    if a = 0 ∧ (p = 512 ∨ p = 1536) then ⟨6 + p / 512, PTE_V ||| PTE_U ||| PTE_W⟩ else Pte.zero := by
  by_cases hp : a = 0 ∧ (p = 512 ∨ p = 1536)
  · rw [if_pos hp]
    obtain ⟨rfl, rfl | rfl⟩ := hp
    · rfl
    · rfl
  · rw [if_neg hp]
    by_cases h₁ : a = 0 ∧ pdx1 p = 0
    · by_cases h₀ : (pdx0 p).val = 1 ∨ (pdx0 p).val = 3
      · have hx : ¬ (ptx p).val = 0 := by
          simp only [pdx1, pdx0, ptx, PDPAGES, NPDEENTRY, NPTEENTRY] at *
          omega
        simp only [State.pte, State.table, twoPages, if_pos h₁, if_pos h₀, if_neg hx]
      · simp only [State.pte, State.table, twoPages, if_pos h₁, if_neg h₀]
    · simp only [State.pte, State.table, twoPages, if_neg h₁]

theorem twoPages_mapping : mapping twoPages a p = some f ↔
    a = 0 ∧ (p = 512 ∧ f = 7 ∨ p = 1536 ∧ f = 9) := by
  rw [mapping_eq_some, twoPages_pte]
  by_cases hp : a = 0 ∧ (p = 512 ∨ p = 1536)
  · rw [if_pos hp]
    obtain ⟨rfl, rfl | rfl⟩ := hp
    · simp [show has (PTE_V ||| PTE_U ||| PTE_W) PTE_V = true by decide, eq_comm]
    · simp [show has (PTE_V ||| PTE_U ||| PTE_W) PTE_V = true by decide, eq_comm]
  · rw [if_neg hp]
    refine iff_of_false (fun h => absurd h.1 (by decide)) ?_
    rintro ⟨ha, ⟨h, -⟩ | ⟨h, -⟩⟩
    · exact hp ⟨ha, .inl h⟩
    · exact hp ⟨ha, .inr h⟩

theorem twoPages_counted : Counted twoPages := by
  refine ⟨fun a P f => ?_, fun f hf => ?_⟩
  · have hsub : mappingsOf twoPages a P f ⊆ if f = 7 then {512} else if f = 9 then {1536} else ∅ := by
      intro p hp
      obtain ⟨-, ⟨rfl, rfl⟩ | ⟨rfl, rfl⟩⟩ := twoPages_mapping.mp (mem_mappingsOf.mp hp).2
      · exact Finset.mem_singleton_self _
      · exact Finset.mem_singleton_self _
    have hle := Finset.card_le_card hsub
    by_cases hf : f = 7 ∨ f = 9
    · obtain rfl | rfl := hf
      · exact Int.ofNat_le.mpr hle
      · exact Int.ofNat_le.mpr hle
    · rw [not_or] at hf
      rw [if_neg hf.1, if_neg hf.2, Finset.card_empty] at hle
      have hge : 0 ≤ twoPages.ref f := by
        simp only [twoPages]
        split <;> decide
      omega
  · revert f
    decide

theorem twoPages_mappedPages : mappedPages twoPages 0 (0x200000 / PGSIZE) (0x700000 / PGSIZE) = {512, 1536} := by
  ext p
  rw [mem_mappedPages, Finset.mem_insert, Finset.mem_singleton, Option.isSome_iff_exists]
  constructor
  · rintro ⟨-, f, hf⟩
    obtain ⟨-, ⟨h, -⟩ | ⟨h, -⟩⟩ := twoPages_mapping.mp hf
    · exact .inl h
    · exact .inr h
  · rintro (rfl | rfl)
    · exact ⟨by decide, 7, rfl⟩
    · exact ⟨by decide, 9, rfl⟩

theorem copyRange_unmapRange_exact_twoPages :
    (∃ s', copyRange firstFit 1 0 0x200000 0x700000 twoPages = some (0, s') ∧
      (∀ p ∈ Finset.Ico (0x200000 / PGSIZE) (0x700000 / PGSIZE),
        (mapping s' 1 p).isSome = (mapping twoPages 0 p).isSome) ∧
      Copied twoPages s' 1 0
        (mappedPages twoPages 0 (0x200000 / PGSIZE) (0x700000 / PGSIZE))) ∧
    ∃ s', unmapRange 0 0x200000 0x700000 twoPages = some s' ∧
      Unmapped twoPages s' 0 (Finset.Ico (0x200000 / PGSIZE) (0x700000 / PGSIZE)) := by
  have hrange : UserRange 0x200000 0x700000 := by decide
  obtain ⟨hcopy, hunmap⟩ := copyRange_unmapRange_exact twoPages_counted hrange
  refine ⟨hcopy firstFit 1 0 (by decide) (fun p _ => ?_) (serves_of_card firstFit_isSome ?_), hunmap 0⟩
  · refine Option.eq_none_iff_forall_ne_some.mpr fun f hf => ?_
    exact absurd (twoPages_mapping.mp hf).1 (by decide)
  · rw [pagesNeeded, twoPages_mappedPages]
    decide

end Ucore.Paging
