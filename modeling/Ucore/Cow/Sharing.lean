import Ucore.Cow.Model
import Ucore.Cow.Space
import Ucore.Lib.RefCount

/-!
# Frames and the pages that share them

`mapping s` sends a page of an address space to its frame, `view s` to the bytes it reads.  `Sharing`
is the invariant: the counters of the frames are right, a frame of the allocator is free exactly
when no page maps it, and a page with `PTE_W` is alone on its frame.

The three ways to change one entry, `Sharing.reflag`, `Sharing.remove` and `Sharing.map`, are all
that the operations of `pmm.c` do; `pageInsert_spec` puts them together.
-/

namespace Ucore.Cow

open RefCount

variable {s s' : State} {pool held : Set ℕ} {a p f : ℕ} {x y : ℕ × ℕ} {fl perm : Perm}

/-! ### Flags -/

theorem has_V (f : Perm) : has f PTE_V = f.getLsbD 0 := by
  revert f
  decide

theorem has_W (f : Perm) : has f PTE_W = f.getLsbD 2 := by
  revert f
  decide

/-! ### Views -/

/-- The pages of all address spaces and their frames. -/
def mapping (s : State) (x : ℕ × ℕ) : Option ℕ :=
  if has (s.pte x.1 x.2).flags PTE_V then some (s.pte x.1 x.2).ppn else none

/-- The bytes behind the valid entries. -/
def view (s : State) : Space Bytes := Option.map s.data ∘ mapping s

theorem mapping_eq_some : mapping s (a, p) = some f ↔
    has (s.pte a p).flags PTE_V = true ∧ (s.pte a p).ppn = f := by
  show (if has (s.pte a p).flags PTE_V then some (s.pte a p).ppn else none) = some f ↔ _
  split
  · rename_i h
    rw [Option.some.injEq]
    exact (and_iff_right h).symm
  · rename_i h
    exact iff_of_false nofun fun hc => h hc.1

theorem mapping_eq_none : mapping s (a, p) = none ↔ has (s.pte a p).flags PTE_V = false := by
  show (if has (s.pte a p).flags PTE_V then some (s.pte a p).ppn else none) = none ↔ _
  split
  · rename_i h
    rw [h]
    exact iff_of_false nofun nofun
  · rename_i h
    exact iff_of_true rfl (Bool.eq_false_of_not_eq_true h)

theorem pte_setPte_self (s : State) (a p : ℕ) (e : Pte) : (s.setPte a p e).pte a p = e := by
  simp only [State.pte, State.setPte, Function.update_self]

theorem pte_setPte_of_ne {b q : ℕ} (s : State) (e : Pte) (h : (b, q) ≠ (a, p)) :
    (s.setPte a p e).pte b q = s.pte b q := by
  simp only [State.pte, State.setPte]
  by_cases hb : b = a
  · subst hb
    have hq : q ≠ p := fun he => h (he ▸ rfl)
    rw [Function.update_self]
    exact Function.update_of_ne hq _ _
  · rw [Function.update_of_ne hb]

theorem mapping_setPte (s : State) (a p : ℕ) (e : Pte) :
    mapping (s.setPte a p e) =
      Function.update (mapping s) (a, p) (if has e.flags PTE_V then some e.ppn else none) := by
  funext x
  by_cases hx : x = (a, p)
  · subst hx
    rw [Function.update_self, mapping, pte_setPte_self]
  · rw [Function.update_of_ne hx, mapping, mapping, pte_setPte_of_ne s e hx]

@[simp] theorem setPte_hasTable (s : State) (a p b : ℕ) (e : Pte) :
    ((s.setPte a p e).mm b).hasTable = (s.mm b).hasTable := by
  simp only [State.setPte]
  by_cases hb : b = a
  · rw [hb, Function.update_self]
  · rw [Function.update_of_ne hb]

@[simp] theorem setPte_mmapList (s : State) (a p b : ℕ) (e : Pte) :
    ((s.setPte a p e).mm b).mmapList = (s.mm b).mmapList := by
  simp only [State.setPte]
  by_cases hb : b = a
  · rw [hb, Function.update_self]
  · rw [Function.update_of_ne hb]

/-! ### The invariant -/

/-- The frames `pool` belong to the allocator; those in `held` have been allocated and are not
mapped yet. -/
structure Sharing (pool held : Set ℕ) (s : State) : Prop where
  counts : Counts (mapping s) s.ref
  free : ∀ f, s.free f = true → f ∈ pool ∧ s.ref f = 0
  used : ∀ f ∈ pool, s.free f = false → f ∉ held → s.ref f ≠ 0
  inPool : ∀ x f, mapping s x = some f → f ∈ pool
  write : ∀ x f, mapping s x = some f → has (s.pte x.1 x.2).flags PTE_W = true → s.ref f = 1
  table : ∀ a p, (s.mm a).hasTable (p / NPTEENTRY) = false → s.pte a p = Pte.zero

theorem Sharing.not_free (h : Sharing pool held s) (hx : mapping s x = some f) :
    s.free f = false := by
  cases hf : s.free f with
  | false => rfl
  | true => exact absurd hx (h.counts.ne_some (h.free f hf).2)

theorem Sharing.hasTable (h : Sharing pool held s) (hx : mapping s (a, p) = some f) :
    (s.mm a).hasTable (p / NPTEENTRY) = true := by
  cases ht : (s.mm a).hasTable (p / NPTEENTRY) with
  | true => rfl
  | false =>
    have hv := (mapping_eq_some.mp hx).1
    rw [h.table a p ht] at hv
    exact absurd hv (by decide)

/-- The frame of a writable page has no other page. -/
theorem Sharing.alone (h : Sharing pool held s) (hx : mapping s x = some f)
    (hw : has (s.pte x.1 x.2).flags PTE_W = true) (hy : mapping s y = some f) : y = x :=
  h.counts.eq_of_one (h.write x f hx hw) hy hx

/-- New flags for a valid entry. -/
theorem Sharing.reflag (h : Sharing pool held s) (fl : Perm) (hx : mapping s (a, p) = some f)
    (hv : has fl PTE_V = true) (hw : has fl PTE_W = true → s.ref f = 1) :
    Sharing pool held (s.setPte a p ⟨f, fl⟩) ∧ mapping (s.setPte a p ⟨f, fl⟩) = mapping s := by
  have hmap : mapping (s.setPte a p ⟨f, fl⟩) = mapping s := by
    rw [mapping_setPte, if_pos hv]
    show Function.update (mapping s) (a, p) (some f) = mapping s
    rw [← hx, Function.update_eq_self]
  refine ⟨⟨?_, h.free, h.used, ?_, fun y g hy hyw => ?_, fun b q ht => ?_⟩, hmap⟩
  · rw [hmap]
    exact h.counts
  · rw [hmap]
    exact h.inPool
  · rw [hmap] at hy
    by_cases hyx : y = (a, p)
    · subst hyx
      rw [pte_setPte_self] at hyw
      obtain rfl := Option.some.inj (hx.symm.trans hy)
      exact hw hyw
    · rw [pte_setPte_of_ne s _ hyx] at hyw
      exact h.write y g hy hyw
  · rw [setPte_hasTable] at ht
    by_cases hbq : (b, q) = (a, p)
    · obtain ⟨rfl, rfl⟩ := Prod.mk.inj hbq
      rw [h.hasTable hx] at ht
      exact absurd ht (by decide)
    · rw [pte_setPte_of_ne s _ hbq]
      exact h.table b q ht

/-- An invalid entry is pointed at a frame that is new or whose pages are all read-only. -/
theorem Sharing.map (h : Sharing pool held s) (hx : mapping s (a, p) = none)
    (ht : (s.mm a).hasTable (p / NPTEENTRY) = true) (hpool : f ∈ pool) (hfree : s.free f = false)
    (hv : has fl PTE_V = true) (hw : has fl PTE_W = true → s.ref f = 0)
    (hro : ∀ y, mapping s y = some f → has (s.pte y.1 y.2).flags PTE_W = false) :
    Sharing pool (held \ {f}) ((pageRefInc f s).setPte a p ⟨f, fl⟩) := by
  have hmap : mapping ((pageRefInc f s).setPte a p ⟨f, fl⟩) =
      Function.update (mapping s) (a, p) (some f) := by
    rw [mapping_setPte, if_pos hv]
    rfl
  refine ⟨?_, fun g hg => ?_, fun g hg hgf hgh => ?_, fun y g hy => ?_, fun y g hy hyw => ?_,
    fun b q hbt => ?_⟩
  · rw [hmap]
    exact h.counts.add hx
  · have hne : g ≠ f := fun he => Bool.false_ne_true ((he ▸ hfree).symm.trans hg)
    exact ⟨(h.free g hg).1, (Function.update_of_ne hne _ _).trans (h.free g hg).2⟩
  · show Function.update s.ref f (s.ref f + 1) g ≠ 0
    by_cases hgf' : g = f
    · rw [hgf', Function.update_self]
      exact Nat.succ_ne_zero _
    · rw [Function.update_of_ne hgf']
      exact h.used g hg hgf fun hmem => hgh ⟨hmem, hgf'⟩
  · rw [hmap] at hy
    by_cases hyx : y = (a, p)
    · rw [hyx, Function.update_self] at hy
      exact Option.some.inj hy ▸ hpool
    · rw [Function.update_of_ne hyx] at hy
      exact h.inPool y g hy
  · rw [hmap] at hy
    show Function.update s.ref f (s.ref f + 1) g = 1
    by_cases hyx : y = (a, p)
    · subst hyx
      rw [Function.update_self] at hy
      obtain rfl := Option.some.inj hy
      rw [pte_setPte_self] at hyw
      rw [Function.update_self, hw hyw]
    · rw [Function.update_of_ne hyx] at hy
      rw [pte_setPte_of_ne _ _ hyx] at hyw
      have hgf : g ≠ f := by
        rintro rfl
        exact absurd ((hro y hy).symm.trans hyw) (by decide)
      rw [Function.update_of_ne hgf]
      exact h.write y g hy hyw
  · rw [setPte_hasTable] at hbt
    by_cases hbq : (b, q) = (a, p)
    · obtain ⟨rfl, rfl⟩ := Prod.mk.inj hbq
      exact absurd (ht.symm.trans hbt) (by decide)
    · rw [pte_setPte_of_ne _ _ hbq]
      exact h.table b q hbt

/-- What `page_remove_pte` does to a valid entry. -/
structure Removes (s s' : State) (a p f : ℕ) : Prop where
  mapping : mapping s' = Function.update (Cow.mapping s) (a, p) none
  ref : s'.ref = Function.update s.ref f (s.ref f - 1)
  free : s'.free = if s.ref f - 1 = 0 then Function.update s.free f true else s.free
  data : s'.data = s.data
  pte : s'.pte a p = Pte.zero
  others : ∀ b q, (b, q) ≠ (a, p) → s'.pte b q = s.pte b q
  hasTable : ∀ b, (s'.mm b).hasTable = (s.mm b).hasTable
  mmapList : ∀ b, (s'.mm b).mmapList = (s.mm b).mmapList

theorem pageRemovePte_spec (hx : mapping s (a, p) = some f) :
    Removes s (pageRemovePte a p s) a p f := by
  obtain ⟨hv, rfl⟩ := mapping_eq_some.mp hx
  have hdec : (pageRefDec (s.pte a p).ppn s).ref (s.pte a p).ppn = s.ref (s.pte a p).ppn - 1 :=
    Function.update_self _ _ _
  have hzero : has Pte.zero.flags PTE_V = false := by decide
  by_cases h0 : s.ref (s.pte a p).ppn - 1 = 0
  · have heq : pageRemovePte a p s =
        (freePage (s.pte a p).ppn (pageRefDec (s.pte a p).ppn s)).setPte a p Pte.zero := by
      simp only [pageRemovePte, hv, if_true, hdec, h0]
    rw [heq]
    refine ⟨?_, rfl, by rw [if_pos h0]; rfl, rfl, pte_setPte_self _ _ _ _,
      fun b q hbq => pte_setPte_of_ne _ _ hbq, fun b => setPte_hasTable _ _ _ _ _,
      fun b => setPte_mmapList _ _ _ _ _⟩
    rw [mapping_setPte, hzero]
    rfl
  · have heq : pageRemovePte a p s = (pageRefDec (s.pte a p).ppn s).setPte a p Pte.zero := by
      simp only [pageRemovePte, hv, if_true, hdec, if_neg h0]
    rw [heq]
    refine ⟨?_, rfl, by rw [if_neg h0]; rfl, rfl, pte_setPte_self _ _ _ _,
      fun b q hbq => pte_setPte_of_ne _ _ hbq, fun b => setPte_hasTable _ _ _ _ _,
      fun b => setPte_mmapList _ _ _ _ _⟩
    rw [mapping_setPte, hzero]
    rfl

/-- **A frame is freed exactly when its last page lets go of it.** -/
theorem Sharing.remove (h : Sharing pool held s) (hx : mapping s (a, p) = some f)
    (hr : Removes s s' a p f) : Sharing pool held s' := by
  have hold : ∀ y g, mapping s' y = some g → y ≠ (a, p) ∧ mapping s y = some g := by
    intro y g hy
    rw [hr.mapping] at hy
    by_cases hyx : y = (a, p)
    · rw [hyx, Function.update_self] at hy
      exact nomatch hy
    · rw [Function.update_of_ne hyx] at hy
      exact ⟨hyx, hy⟩
  refine ⟨?_, fun g hg => ?_, fun g hg hgf hgh => ?_, fun y g hy => h.inPool y g (hold y g hy).2,
    fun y g hy hyw => ?_, fun b q hbt => ?_⟩
  · rw [hr.mapping, hr.ref]
    exact h.counts.drop hx
  · rw [hr.free] at hg
    rw [hr.ref]
    by_cases hgf : g = f
    · subst hgf
      rw [Function.update_self]
      split at hg
      · rename_i h0
        exact ⟨h.inPool _ _ hx, h0⟩
      · exact absurd ((h.not_free hx).symm.trans hg) (by decide)
    · rw [Function.update_of_ne hgf]
      split at hg
      · rw [Function.update_of_ne hgf] at hg
        exact h.free g hg
      · exact h.free g hg
  · rw [hr.free] at hgf
    rw [hr.ref]
    by_cases hge : g = f
    · subst hge
      rw [Function.update_self]
      split at hgf
      · rw [Function.update_self] at hgf
        exact absurd hgf (by decide)
      · assumption
    · rw [Function.update_of_ne hge]
      split at hgf
      · rw [Function.update_of_ne hge] at hgf
        exact h.used g hg hgf hgh
      · exact h.used g hg hgf hgh
  · obtain ⟨hyx, hy'⟩ := hold y g hy
    rw [hr.others y.1 y.2 hyx] at hyw
    have hgf : g ≠ f := by
      rintro rfl
      exact hyx (h.alone hy' hyw hx).symm
    rw [hr.ref, Function.update_of_ne hgf]
    exact h.write y g hy' hyw
  · by_cases hbq : (b, q) = (a, p)
    · obtain ⟨rfl, rfl⟩ := Prod.mk.inj hbq
      exact hr.pte
    · rw [hr.others b q hbq]
      rw [hr.hasTable] at hbt
      exact h.table b q hbt

end Ucore.Cow
