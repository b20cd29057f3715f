import Ucore.Paging.Entries

/-!
# `get_pte` and `page_insert`

`Takes` is a row of calls of `alloc_page` that all succeed.  `Grows` is what `get_pte` may do to a
state: it takes free pages for new tables and changes no entry.  With as many pages as `missing` counts
it finds or makes the table.
-/

namespace Ucore.Paging

open Cow (NPTEENTRY PTE_V Perm Pte has pteCreate)

variable {alloc : Allocator} {s s' s'' : State} {a b p q page : ℕ} {perm : Perm}

/-! ### The allocator -/

/-- `n` calls of `alloc_page` in a row succeed, and leave `free'` of the free pages. -/
def Takes (alloc : Allocator) : ℕ → Finset ℕ → Finset ℕ → Prop
  | 0, free, free' => free' = free
  | n + 1, free, free' => ∃ page, alloc free = some page ∧ Takes alloc n (free.erase page) free'

/-- `n` calls of `alloc_page` in a row succeed. -/
def Serves (alloc : Allocator) (n : ℕ) (free : Finset ℕ) : Prop := ∃ free', Takes alloc n free free'

theorem Takes.trans {m n : ℕ} {free free' free'' : Finset ℕ} (h : Takes alloc m free free')
    (h' : Takes alloc n free' free'') : Takes alloc (m + n) free free'' := by
  induction m generalizing free with
  | zero =>
    obtain rfl : free' = free := h
    rw [Nat.zero_add]
    exact h'
  | succ m ih =>
    obtain ⟨page, hpage, h⟩ := h
    rw [Nat.add_right_comm]
    exact ⟨page, hpage, ih h⟩

/-- The calls that are left after `m` of them. -/
theorem Serves.rest {m n : ℕ} {free free' : Finset ℕ} (h : Serves alloc (m + n) free)
    (ht : Takes alloc m free free') : Serves alloc n free' := by
  induction m generalizing free with
  | zero =>
    obtain rfl : free' = free := ht
    rwa [Nat.zero_add] at h
  | succ m ih =>
    obtain ⟨page, hpage, ht⟩ := ht
    rw [Nat.add_right_comm] at h
    obtain ⟨last, page', hpage', h⟩ := h
    obtain rfl := Option.some.inj (hpage'.symm.trans hpage)
    exact ih ⟨last, h⟩ ht

theorem Serves.mono {m n : ℕ} {free : Finset ℕ} (h : Serves alloc n free) (hle : m ≤ n) :
    Serves alloc m free := by
  induction m generalizing n free with
  | zero => exact ⟨free, rfl⟩
  | succ m ih =>
    obtain ⟨k, rfl⟩ := Nat.exists_eq_add_of_le hle
    rw [Nat.add_right_comm] at h
    obtain ⟨last, page, hpage, h⟩ := h
    obtain ⟨last', h'⟩ := ih ⟨last, h⟩ (Nat.le_add_right m k)
    exact ⟨last', page, hpage, h'⟩

/-- An allocator that fails only when no page is free. -/
theorem serves_of_card (hfull : ∀ free : Finset ℕ, free.Nonempty → (alloc free).isSome) {n : ℕ}
    {free : Finset ℕ} (hcard : n ≤ free.card) : Serves alloc n free := by
  induction n generalizing free with
  | zero => exact ⟨free, rfl⟩
  | succ n ih =>
    obtain ⟨page, hpage⟩ := Option.isSome_iff_exists.mp (hfull free (Finset.card_pos.mp (by omega)))
    have herase := Finset.card_erase_add_one page.2
    have hrest : n ≤ (free.erase page).card := by omega
    obtain ⟨last, h⟩ := ih hrest
    exact ⟨last, page, hpage, h⟩

theorem allocPage_some (h : allocPage alloc s = some (page, s')) :
    page ∈ s.free ∧ s' = { s with free := s.free.erase page } ∧ Takes alloc 1 s.free s'.free := by
  rw [allocPage] at h
  split at h
  · exact nomatch h
  · rename_i page' hpage
    obtain ⟨rfl, rfl⟩ := Prod.mk.inj (Option.some.inj h)
    exact ⟨page'.2, rfl, page', hpage, rfl⟩

theorem allocPage_spec {n : ℕ} (h : Serves alloc (n + 1) s.free) :
    ∃ page ∈ s.free, allocPage alloc s = some (page, { s with free := s.free.erase page }) ∧
      Takes alloc 1 s.free (s.free.erase page) := by
  obtain ⟨last, page, hpage, -⟩ := h
  refine ⟨page.1, page.2, ?_, page, hpage, rfl⟩
  rw [allocPage, hpage]

/-! ### New tables -/

/-- Free pages become tables of `a`; no entry changes. -/
structure Grows (s s' : State) (a : ℕ) : Prop where
  pte : ∀ b q, s'.pte b q = s.pte b q
  others : ∀ b, b ≠ a → s'.pgdir b = s.pgdir b
  dir : ∀ i, (s.pgdir a i).isSome → (s'.pgdir a i).isSome
  table : ∀ q, (s.table a q).isSome → (s'.table a q).isSome
  data : s'.data = s.data
  freed : s'.freed = s.freed
  free : s'.free ⊆ s.free
  ref : ∀ f, f ∉ s.free ∨ f ∈ s'.free → s'.ref f = s.ref f

theorem Grows.refl (s : State) (a : ℕ) : Grows s s a :=
  ⟨fun _ _ => rfl, fun _ _ => rfl, fun _ h => h, fun _ h => h, rfl, rfl, subset_rfl,
    fun _ _ => rfl⟩

theorem Grows.trans (h₁ : Grows s s' a) (h₂ : Grows s' s'' a) : Grows s s'' a where
  pte b q := (h₂.pte b q).trans (h₁.pte b q)
  others b hb := (h₂.others b hb).trans (h₁.others b hb)
  dir i h := h₂.dir i (h₁.dir i h)
  table q h := h₂.table q (h₁.table q h)
  data := h₂.data.trans h₁.data
  freed := h₂.freed.trans h₁.freed
  free := h₂.free.trans h₁.free
  ref f hf := by
    have hf₁ : f ∉ s.free ∨ f ∈ s'.free := hf.imp_right fun h => h₂.free h
    have hf₂ : f ∉ s'.free ∨ f ∈ s''.free := hf.imp_left fun h hc => h (h₁.free hc)
    exact (h₂.ref f hf₂).trans (h₁.ref f hf₁)

theorem Grows.mapping (h : Grows s s' a) (b q : ℕ) : mapping s' b q = mapping s b q :=
  mapping_congr (h.pte b q)

theorem others_setDir (s : State) (i : ℕ) (o : Option Dir) (h : b ≠ a) :
    (s.setDir a i o).pgdir b = s.pgdir b := by
  funext j
  refine pgdir_setDir_of_ne s o fun hc => h (Prod.mk.inj hc).1

/-- A free page becomes a directory page. -/
theorem grows_dir (hpage : page ∈ s.free) (hd : s.pgdir a (pdx1 p) = none) :
    Grows s ((setPageRef page 1 { s with free := s.free.erase page }).setDir a (pdx1 p)
      (some ⟨page, fun _ => none⟩)) a := by
  have htab : ∀ b q, ((setPageRef page 1 { s with free := s.free.erase page }).setDir a (pdx1 p)
      (some ⟨page, fun _ => none⟩)).table b q = s.table b q := fun b q =>
    table_setDir_new (s := setPageRef page 1 { s with free := s.free.erase page }) hd page b q
  refine ⟨fun b q => pte_of_table (htab b q), fun b hb => others_setDir _ _ _ hb, fun i hi => ?_,
    fun q hq => ?_, rfl, rfl, Finset.erase_subset _ _, fun f hf => ?_⟩
  · by_cases hip : i = pdx1 p
    · rw [hip, pgdir_setDir_self]
      rfl
    · rw [pgdir_setDir_of_ne _ _ fun hc => hip (Prod.mk.inj hc).2]
      exact hi
  · rw [htab]
    exact hq
  · have hne : f ≠ page := by
      rintro rfl
      rcases hf with hf | hf
      · exact hf hpage
      · exact Finset.notMem_erase f s.free hf
    exact Function.update_of_ne hne _ _

/-- A free page becomes a page table. -/
theorem grows_table {pd0 : Dir} (hpage : page ∈ s.free) (hd : s.pgdir a (pdx1 p) = some pd0)
    (ht : pd0.entry (pdx0 p) = none) :
    Grows s ((setPageRef page 1 { s with free := s.free.erase page }).setDir a (pdx1 p)
      (some (pd0.set (pdx0 p) (some ⟨page, fun _ => Pte.zero⟩)))) a := by
  have htab := table_setDir (s := setPageRef page 1 { s with free := s.free.erase page }) hd
    (some ⟨page, fun _ => Pte.zero⟩)
  refine ⟨fun b q => ?_, fun b hb => others_setDir _ _ _ hb, fun i hi => ?_,
    fun q hq => ?_, rfl, rfl, Finset.erase_subset _ _, fun f hf => ?_⟩
  · by_cases hr : b = a ∧ q / NPTEENTRY = p / NPTEENTRY
    · obtain ⟨rfl, hr⟩ := hr
      -- the entries of the new table are zero, as those of the missing table were
      have hnone : s.table b q = none := by
        rw [table_congr s b hr, table_of_dir hd, ht]
      rw [pte_of_some ((htab b q).trans (if_pos ⟨rfl, hr⟩)), pte_of_none hnone]
    · exact pte_of_table ((htab b q).trans (if_neg hr))
  · by_cases hip : i = pdx1 p
    · rw [hip, pgdir_setDir_self]
      rfl
    · rw [pgdir_setDir_of_ne _ _ fun hc => hip (Prod.mk.inj hc).2]
      exact hi
  · rw [htab]
    split
    · rfl
    · exact hq
  · have hne : f ≠ page := by
      rintro rfl
      rcases hf with hf | hf
      · exact hf hpage
      · exact Finset.notMem_erase f s.free hf
    exact Function.update_of_ne hne _ _

/-- The table pages that `get_pte` has to allocate for page `p`. -/
def missing (s : State) (a p : ℕ) : ℕ :=
  (if (s.pgdir a (pdx1 p)).isSome then 0 else 1) + if (s.table a p).isSome then 0 else 1

theorem getDir_spec (hserves : Serves alloc (if (s.pgdir a (pdx1 p)).isSome then 0 else 1) s.free) :
    ∃ pd0 s', getDir alloc true a p s = (some pd0, s') ∧ s'.pgdir a (pdx1 p) = some pd0 ∧
      Grows s s' a ∧ pd0.entry (pdx0 p) = s.table a p ∧
      Takes alloc (if (s.pgdir a (pdx1 p)).isSome then 0 else 1) s.free s'.free := by
  cases hd : s.pgdir a (pdx1 p) with
  | some pd0 =>
    exact ⟨pd0, s, by rw [getDir, hd], hd, Grows.refl s a, (table_of_dir hd).symm, rfl⟩
  | none =>
    rw [hd] at hserves
    obtain ⟨page, hpage, halloc, htakes⟩ := allocPage_spec (n := 0) hserves
    refine ⟨⟨page, fun _ => none⟩, _, ?_, pgdir_setDir_self _ _ _ _, grows_dir hpage hd,
      (table_of_none hd).symm, htakes⟩
    rw [getDir, hd]
    simp only [if_true, halloc]

/-- **`get_pte`** with `create`: the table is there afterwards. -/
theorem getPte_spec (hserves : Serves alloc (missing s a p) s.free) :
    ∃ s', getPte alloc true a p s = (true, s') ∧ Grows s s' a ∧ (s'.pgdir a (pdx1 p)).isSome ∧
      (s'.table a p).isSome ∧ Takes alloc (missing s a p) s.free s'.free := by
  have hdir : Serves alloc (if (s.pgdir a (pdx1 p)).isSome then 0 else 1) s.free :=
    hserves.mono (Nat.le_add_right _ _)
  obtain ⟨pd0, s₁, hget, hd, hg, hentry, htakes⟩ := getDir_spec hdir
  have htab : s₁.table a p = s.table a p := (table_of_dir hd).trans hentry
  cases ht : s.table a p with
  | some pt =>
    refine ⟨s₁, ?_, hg, ?_, ?_, ?_⟩
    · rw [getPte, hget]
      simp only [hentry, ht]
    · rw [hd]
      rfl
    · rw [htab, ht]
      rfl
    · rw [missing, ht]
      exact htakes
  | none =>
    have hserves₁ : Serves alloc 1 s₁.free := by
      rw [missing, ht] at hserves
      exact hserves.rest htakes
    obtain ⟨page, hpage, halloc, htakes₁⟩ := allocPage_spec (n := 0) hserves₁
    have hnone : pd0.entry (pdx0 p) = none := hentry.trans ht
    refine ⟨_, ?_, hg.trans (grows_table hpage hd hnone), ?_, ?_, ?_⟩
    · rw [getPte, hget]
      simp only [hnone, if_true, halloc]
    · rw [pgdir_setDir_self]
      rfl
    · rw [table_setDir (s := setPageRef page 1 { s₁ with free := s₁.free.erase page }) hd,
        if_pos ⟨rfl, rfl⟩]
      rfl
    · rw [missing, ht]
      exact htakes.trans htakes₁

theorem getPte_of_table (create : Bool) (ht : (s.table a p).isSome) :
    getPte alloc create a p s = (true, s) := by
  obtain ⟨pt, ht⟩ := Option.isSome_iff_exists.mp ht
  obtain ⟨pd0, hd, hentry⟩ := pgdir_of_table ht
  rw [getPte, getDir, hd]
  simp only [hentry]

/-! ### `page_insert` -/

/-- Page `p` of `a` is mapped to `page`. -/
structure Inserts (s s' : State) (a p page : ℕ) (perm : Perm) : Prop where
  pte : ∀ b q, s'.pte b q =
    if b = a ∧ q = p then pteCreate page (PTE_V ||| perm) else s.pte b q
  others : ∀ b, b ≠ a → s'.pgdir b = s.pgdir b
  ref : s'.ref = Function.update s.ref page (s.ref page + 1)
  data : s'.data = s.data
  free : s'.free = s.free
  freed : s'.freed = s.freed
  tables : SameTables s s'

/-- **`page_insert`** where nothing is mapped. -/
theorem pageInsert_spec (alloc : Allocator) (page : ℕ) (perm : Perm) (ht : (s.table a p).isSome)
    (hnone : mapping s a p = none) :
    ∃ s', pageInsert alloc a page p perm s = (0, s') ∧ Inserts s s' a p page perm := by
  refine ⟨(pageRefInc page s).setPte a p (pteCreate page (PTE_V ||| perm)), ?_, fun b q => ?_,
    fun b hb => ?_, ?_, ?_, ?_, ?_, ?_⟩
  · rw [pageInsert, getPte_of_table true ht]
    have hv : has ((pageRefInc page s).pte a p).flags PTE_V = false := mapping_eq_none.mp hnone
    simp only [hv, Bool.false_eq_true, if_false]
  · exact pte_setPte (s := pageRefInc page s) ht _ b q
  · exact pgdir_setPte_of_ne (pageRefInc page s) p _ hb
  · exact setPte_ref _ _ _ _
  · exact setPte_data _ _ _ _
  · exact setPte_free _ _ _ _
  · exact setPte_freed _ _ _ _
  · have hsame := sameTables_setPte (pageRefInc page s) a p (pteCreate page (PTE_V ||| perm))
    exact ⟨hsame.dir, hsame.table⟩

end Ucore.Paging
