import Ucore.Paging.Model

/-!
# Entries and tables

A page is found again from its three indices, so an assignment to one entry changes no other page,
and a new table changes no entry at all.
-/

namespace Ucore.Paging

open Cow (NPTEENTRY PTE_V Pte has)

variable {s s' s'' : State} {a b i p q : ℕ} {e : Pte} {pd0 : Dir} {pt : Table} {o : Option Table}

/-! ### Indices -/

/-- The pages of one table. -/
theorem region_eq (h₁ : pdx1 p = pdx1 q) (h₀ : pdx0 p = pdx0 q) :
    p / NPTEENTRY = q / NPTEENTRY := by
  have h₀' := congrArg Fin.val h₀
  simp only [pdx1, pdx0, PDPAGES, NPTEENTRY, NPDEENTRY] at *
  omega

theorem page_eq (hr : p / NPTEENTRY = q / NPTEENTRY) (hx : ptx p = ptx q) : p = q := by
  have hx' := congrArg Fin.val hx
  simp only [ptx, NPTEENTRY] at *
  omega

theorem pdx1_congr (hr : p / NPTEENTRY = q / NPTEENTRY) : pdx1 p = pdx1 q := by
  simp only [pdx1, PDPAGES, NPTEENTRY, NPDEENTRY] at *
  omega

theorem pdx0_congr (hr : p / NPTEENTRY = q / NPTEENTRY) : pdx0 p = pdx0 q := by
  simp only [pdx0, hr]

theorem table_congr (s : State) (a : ℕ) (hr : p / NPTEENTRY = q / NPTEENTRY) :
    s.table a p = s.table a q := by
  simp only [State.table, pdx1_congr hr, pdx0_congr hr]

/-! ### Directories -/

@[simp] theorem pgdir_setDir_self (s : State) (a i : ℕ) (o : Option Dir) :
    (s.setDir a i o).pgdir a i = o := by
  simp [State.setDir]

theorem pgdir_setDir_of_ne {j : ℕ} (s : State) (o : Option Dir) (h : (b, j) ≠ (a, i)) :
    (s.setDir a i o).pgdir b j = s.pgdir b j := by
  by_cases hb : b = a
  · subst hb
    have hj : j ≠ i := fun he => h (he ▸ rfl)
    simp [State.setDir, hj]
  · simp [State.setDir, hb]

@[simp] theorem setDir_ref (s : State) (a i : ℕ) (o : Option Dir) :
    (s.setDir a i o).ref = s.ref := rfl

@[simp] theorem setDir_data (s : State) (a i : ℕ) (o : Option Dir) :
    (s.setDir a i o).data = s.data := rfl

@[simp] theorem setDir_free (s : State) (a i : ℕ) (o : Option Dir) :
    (s.setDir a i o).free = s.free := rfl

@[simp] theorem setDir_freed (s : State) (a i : ℕ) (o : Option Dir) :
    (s.setDir a i o).freed = s.freed := rfl

/-- Only the directory counts. -/
theorem table_of_pgdir (h : s'.pgdir b (pdx1 q) = s.pgdir b (pdx1 q)) :
    s'.table b q = s.table b q := by
  simp only [State.table, h]

theorem pte_of_table (h : s'.table b q = s.table b q) : s'.pte b q = s.pte b q := by
  simp only [State.pte, h]

theorem table_of_dir (h : s.pgdir a (pdx1 p) = some pd0) : s.table a p = pd0.entry (pdx0 p) := by
  simp only [State.table, h]

theorem table_of_none (h : s.pgdir a (pdx1 p) = none) : s.table a p = none := by
  simp only [State.table, h]

theorem pte_of_some (h : s.table a p = some pt) : s.pte a p = pt.entry (ptx p) := by
  simp only [State.pte, h]

theorem pte_of_none (h : s.table a p = none) : s.pte a p = Pte.zero := by
  simp only [State.pte, h]

theorem pgdir_of_table (h : s.table a p = some pt) :
    ∃ pd0, s.pgdir a (pdx1 p) = some pd0 ∧ pd0.entry (pdx0 p) = some pt := by
  cases hd : s.pgdir a (pdx1 p) with
  | none =>
    rw [table_of_none hd] at h
    exact nomatch h
  | some pd0 => exact ⟨pd0, rfl, (table_of_dir hd).symm.trans h⟩

/-- An entry of a directory page is assigned: this is the table of one region. -/
theorem table_setDir (hd : s.pgdir a (pdx1 p) = some pd0) (o : Option Table) (b q : ℕ) :
    (s.setDir a (pdx1 p) (some (pd0.set (pdx0 p) o))).table b q =
      if b = a ∧ q / NPTEENTRY = p / NPTEENTRY then o else s.table b q := by
  by_cases hbi : (b, pdx1 q) = (a, pdx1 p)
  · obtain ⟨rfl, hq⟩ := Prod.mk.inj hbi
    have hd' : s.pgdir b (pdx1 q) = some pd0 := by
      rw [hq]
      exact hd
    have hnew : (s.setDir b (pdx1 p) (some (pd0.set (pdx0 p) o))).pgdir b (pdx1 q) =
        some (pd0.set (pdx0 p) o) := by
      rw [hq, pgdir_setDir_self]
    rw [table_of_dir hnew, table_of_dir hd', Dir.set]
    by_cases h0 : pdx0 q = pdx0 p
    · rw [if_pos ⟨rfl, region_eq hq h0⟩, h0]
      exact Function.update_self _ _ _
    · rw [if_neg fun hc => h0 (pdx0_congr hc.2)]
      exact Function.update_of_ne h0 _ _
  · rw [table_of_pgdir (pgdir_setDir_of_ne s _ hbi), if_neg]
    rintro ⟨rfl, hr⟩
    exact hbi (by rw [pdx1_congr hr])

/-- A directory page without tables. -/
theorem table_setDir_new (hd : s.pgdir a (pdx1 p) = none) (page b q : ℕ) :
    (s.setDir a (pdx1 p) (some ⟨page, fun _ => none⟩)).table b q = s.table b q := by
  by_cases hbi : (b, pdx1 q) = (a, pdx1 p)
  · obtain ⟨rfl, hq⟩ := Prod.mk.inj hbi
    rw [table_of_none (s := s) (by rw [hq, hd]), State.table, hq, pgdir_setDir_self]
  · exact table_of_pgdir (pgdir_setDir_of_ne s _ hbi)

/-! ### Assignments to entries -/

theorem setPte_of_table (hd : s.pgdir a (pdx1 p) = some pd0) (ht : pd0.entry (pdx0 p) = some pt)
    (e : Pte) : s.setPte a p e =
      s.setDir a (pdx1 p) (some (pd0.set (pdx0 p) (some (pt.set (ptx p) e)))) := by
  simp only [State.setPte, hd, ht]

theorem table_setPte (ht : s.table a p = some pt) (e : Pte) (b q : ℕ) :
    (s.setPte a p e).table b q =
      if b = a ∧ q / NPTEENTRY = p / NPTEENTRY then some (pt.set (ptx p) e) else s.table b q := by
  obtain ⟨pd0, hd, he⟩ := pgdir_of_table ht
  rw [setPte_of_table hd he, table_setDir hd]

theorem pte_setPte (ht : (s.table a p).isSome) (e : Pte) (b q : ℕ) :
    (s.setPte a p e).pte b q = if b = a ∧ q = p then e else s.pte b q := by
  obtain ⟨pt, ht⟩ := Option.isSome_iff_exists.mp ht
  have htab := table_setPte ht e b q
  by_cases hr : b = a ∧ q / NPTEENTRY = p / NPTEENTRY
  · obtain ⟨rfl, hr⟩ := hr
    rw [if_pos ⟨rfl, hr⟩] at htab
    rw [pte_of_some htab, pte_of_some ((table_congr s b hr).trans ht), Table.set]
    by_cases hx : ptx q = ptx p
    · rw [if_pos ⟨rfl, page_eq hr hx⟩, hx]
      exact Function.update_self _ _ _
    · rw [if_neg fun hc => hx (by rw [hc.2])]
      exact Function.update_of_ne hx _ _
  · rw [if_neg hr] at htab
    rw [pte_of_table htab, if_neg]
    rintro ⟨rfl, rfl⟩
    exact hr ⟨rfl, rfl⟩

theorem pte_setPte_self (ht : (s.table a p).isSome) (e : Pte) : (s.setPte a p e).pte a p = e := by
  rw [pte_setPte ht, if_pos ⟨rfl, rfl⟩]

theorem pte_setPte_of_ne (ht : (s.table a p).isSome) (e : Pte) (h : (b, q) ≠ (a, p)) :
    (s.setPte a p e).pte b q = s.pte b q := by
  rw [pte_setPte ht, if_neg]
  rintro ⟨rfl, rfl⟩
  exact h rfl

theorem pgdir_setPte_of_ne (s : State) (p : ℕ) (e : Pte) (h : b ≠ a) :
    (s.setPte a p e).pgdir b = s.pgdir b := by
  simp only [State.setPte]
  split
  · split
    · simp [State.setDir, h]
    · rfl
  · rfl

/-- An assignment to an entry is one to the page tables only. -/
theorem setPte_fields (s : State) (a p : ℕ) (e : Pte) :
    (s.setPte a p e).ref = s.ref ∧ (s.setPte a p e).data = s.data ∧
      (s.setPte a p e).free = s.free ∧ (s.setPte a p e).freed = s.freed := by
  simp only [State.setPte]
  split
  · split
    · exact ⟨rfl, rfl, rfl, rfl⟩
    · exact ⟨rfl, rfl, rfl, rfl⟩
  · exact ⟨rfl, rfl, rfl, rfl⟩

@[simp] theorem setPte_ref (s : State) (a p : ℕ) (e : Pte) : (s.setPte a p e).ref = s.ref :=
  (setPte_fields s a p e).1

@[simp] theorem setPte_data (s : State) (a p : ℕ) (e : Pte) : (s.setPte a p e).data = s.data :=
  (setPte_fields s a p e).2.1

@[simp] theorem setPte_free (s : State) (a p : ℕ) (e : Pte) : (s.setPte a p e).free = s.free :=
  (setPte_fields s a p e).2.2.1

@[simp] theorem setPte_freed (s : State) (a p : ℕ) (e : Pte) : (s.setPte a p e).freed = s.freed :=
  (setPte_fields s a p e).2.2.2

/-! ### Tables that stay -/

/-- The same pages, directories and tables, whatever the entries. -/
structure SameTables (s s' : State) : Prop where
  dir : ∀ b i, (s'.pgdir b i).map Dir.page = (s.pgdir b i).map Dir.page
  table : ∀ b q, (s'.table b q).map Table.page = (s.table b q).map Table.page

theorem SameTables.refl (s : State) : SameTables s s := ⟨fun _ _ => rfl, fun _ _ => rfl⟩

theorem SameTables.trans (h₁ : SameTables s s') (h₂ : SameTables s' s'') : SameTables s s'' :=
  ⟨fun b i => (h₂.dir b i).trans (h₁.dir b i), fun b q => (h₂.table b q).trans (h₁.table b q)⟩

theorem SameTables.isSome (h : SameTables s s') (b q : ℕ) :
    (s'.table b q).isSome = (s.table b q).isSome := by
  simpa using congrArg Option.isSome (h.table b q)

theorem sameTables_setPte (s : State) (a p : ℕ) (e : Pte) : SameTables s (s.setPte a p e) := by
  cases hd : s.pgdir a (pdx1 p) with
  | none =>
    have heq : s.setPte a p e = s := by simp only [State.setPte, hd]
    rw [heq]
    exact SameTables.refl s
  | some pd0 =>
    cases ht : pd0.entry (pdx0 p) with
    | none =>
      have heq : s.setPte a p e = s := by simp only [State.setPte, hd, ht]
      rw [heq]
      exact SameTables.refl s
    | some pt =>
      rw [setPte_of_table hd ht]
      refine ⟨fun b i => ?_, fun b q => ?_⟩
      · by_cases hbi : (b, i) = (a, pdx1 p)
        · obtain ⟨rfl, rfl⟩ := Prod.mk.inj hbi
          rw [pgdir_setDir_self, hd]
          rfl
        · rw [pgdir_setDir_of_ne s _ hbi]
      · rw [table_setDir hd]
        split
        · rename_i hr
          obtain ⟨rfl, hr⟩ := hr
          rw [table_congr s b hr, table_of_dir hd, ht]
          rfl
        · rfl

/-! ### Frames -/

/-- The frame that page `p` of `a` is mapped to. -/
def mapping (s : State) (a p : ℕ) : Option ℕ :=
  if has (s.pte a p).flags PTE_V then some (s.pte a p).ppn else none

theorem mapping_eq_some {f : ℕ} : mapping s a p = some f ↔
    has (s.pte a p).flags PTE_V = true ∧ (s.pte a p).ppn = f := by
  rw [mapping]
  split
  · rename_i h
    rw [Option.some.injEq]
    exact (and_iff_right h).symm
  · rename_i h
    exact iff_of_false nofun fun hc => h hc.1

theorem mapping_eq_none : mapping s a p = none ↔ has (s.pte a p).flags PTE_V = false := by
  rw [mapping]
  split
  · rename_i h
    rw [h]
    exact iff_of_false nofun nofun
  · rename_i h
    exact iff_of_true rfl (Bool.eq_false_of_not_eq_true h)

theorem mapping_congr (h : s'.pte b q = s.pte b q) : mapping s' b q = mapping s b q := by
  rw [mapping, mapping, h]

/-- A mapped page has a table. -/
theorem table_of_mapping {f : ℕ} (h : mapping s a p = some f) : (s.table a p).isSome := by
  cases ht : s.table a p with
  | some pt => rfl
  | none =>
    have hv := (mapping_eq_some.mp h).1
    rw [pte_of_none ht] at hv
    exact absurd hv (by decide)

end Ucore.Paging
