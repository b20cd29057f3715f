import Mathlib.Algebra.BigOperators.Group.Finset.Basic
import Mathlib.Order.Interval.Finset.Nat
import Ucore.Cow.Operations
import Ucore.Paging.Tables

/-!
# Removing mappings

`Unmapped s s' a P`: the pages `P` of `a` have lost their entries, every frame has lost as many
references, and those left with none are free.  It holds of one `page_remove_pte` and composes over
disjoint sets of pages; the loop of `unmap_range` and the first loop of `exit_mmap` are such
compositions.

The counters have to be at least the number of mappings that go, which is what they are for; a counter
that is too small would reach zero early.
-/

namespace Ucore.Paging

open Cow (NPTEENTRY PGSIZE PTE_V Pte has lt_nextRegion nextRegion)

variable {s s' s'' : State} {a b p q f start stop : ℕ} {P Q : Finset ℕ}

/-- The pages of `P` that `a` maps to the frame `f`. -/
def mappingsOf (s : State) (a : ℕ) (P : Finset ℕ) (f : ℕ) : Finset ℕ :=
  P.filter fun p => mapping s a p = some f

theorem mem_mappingsOf : p ∈ mappingsOf s a P f ↔ p ∈ P ∧ mapping s a p = some f := by
  rw [mappingsOf, Finset.mem_filter]

/-! ### What is lost -/

/-- The pages `P` of `a` are not mapped any more. -/
structure Unmapped (s s' : State) (a : ℕ) (P : Finset ℕ) : Prop where
  pte : ∀ b q, s'.pte b q =
    if b = a ∧ q ∈ P ∧ has (s.pte b q).flags PTE_V = true then Pte.zero else s.pte b q
  ref : ∀ f, s'.ref f = s.ref f - (mappingsOf s a P f).card
  free : ∀ f, f ∈ s'.free ↔ f ∈ s.free ∨ (mappingsOf s a P f).Nonempty ∧ s'.ref f = 0
  data : s'.data = s.data
  tables : SameTables s s'
  freed : ∃ fs : List ℕ, s'.freed = fs.map Released.user ++ s.freed ∧
    ∀ f ∈ fs, (mappingsOf s a P f).Nonempty

theorem Unmapped.mapping (h : Unmapped s s' a P) (b q : ℕ) :
    mapping s' b q = if b = a ∧ q ∈ P then none else mapping s b q := by
  have hpte := h.pte b q
  by_cases hbq : b = a ∧ q ∈ P
  · rw [if_pos hbq]
    by_cases hv : has (s.pte b q).flags PTE_V = true
    · rw [if_pos ⟨hbq.1, hbq.2, hv⟩] at hpte
      rw [mapping_eq_none, hpte]
      decide
    · rw [if_neg fun hc => hv hc.2.2] at hpte
      rw [mapping_congr hpte, mapping_eq_none]
      exact Bool.eq_false_of_not_eq_true hv
  · rw [if_neg fun hc => hbq ⟨hc.1, hc.2.1⟩] at hpte
    rw [if_neg hbq, mapping_congr hpte]

/-- Nothing is mapped on `P`. -/
theorem Unmapped.of_none (h : ∀ p ∈ P, Paging.mapping s a p = none) : Unmapped s s a P := by
  have hempty : ∀ f, mappingsOf s a P f = ∅ := by
    intro f
    refine Finset.eq_empty_of_forall_notMem fun p hp => ?_
    obtain ⟨hmem, hf⟩ := mem_mappingsOf.mp hp
    rw [h p hmem] at hf
    exact nomatch hf
  refine ⟨fun b q => ?_, fun f => ?_, fun f => ?_, rfl, SameTables.refl s, [], rfl, nofun⟩
  · rw [if_neg]
    rintro ⟨rfl, hq, hv⟩
    rw [mapping_eq_none.mp (h q hq)] at hv
    exact nomatch hv
  · rw [hempty f, Finset.card_empty, Nat.cast_zero, sub_zero]
  · rw [hempty f]
    simp

/-- Only mapped pages count. -/
theorem Unmapped.congr (h : Unmapped s s' a P)
    (hPQ : ∀ p, Paging.mapping s a p ≠ none → (p ∈ P ↔ p ∈ Q)) : Unmapped s s' a Q := by
  have heq : ∀ f, mappingsOf s a Q f = mappingsOf s a P f := by
    intro f
    ext p
    rw [mem_mappingsOf, mem_mappingsOf]
    refine and_congr_left fun hf => (hPQ p ?_).symm
    rw [hf]
    exact nofun
  refine ⟨fun b q => ?_, fun f => ?_, fun f => ?_, h.data, h.tables, ?_⟩
  · rw [h.pte]
    have hiff : (b = a ∧ q ∈ P ∧ has (s.pte b q).flags PTE_V = true) ↔
        (b = a ∧ q ∈ Q ∧ has (s.pte b q).flags PTE_V = true) := by
      refine and_congr_right fun hb => and_congr_left fun hv => hPQ q fun hc => ?_
      rw [← hb, mapping_eq_none, hv] at hc
      exact nomatch hc
    simp only [hiff]
  · rw [h.ref, heq]
  · rw [h.free, heq]
  · simp only [heq]
    exact h.freed

/-- The counters are not below the number of mappings. -/
def Covered (s : State) (a : ℕ) (P : Finset ℕ) : Prop :=
  ∀ f, ((mappingsOf s a P f).card : ℤ) ≤ s.ref f

theorem mappingsOf_union (s : State) (a : ℕ) (P Q : Finset ℕ) (f : ℕ) :
    mappingsOf s a (P ∪ Q) f = mappingsOf s a P f ∪ mappingsOf s a Q f :=
  Finset.filter_union _ _ _

theorem card_mappingsOf_union (hPQ : Disjoint P Q) (f : ℕ) :
    (mappingsOf s a (P ∪ Q) f).card =
      (mappingsOf s a P f).card + (mappingsOf s a Q f).card := by
  rw [mappingsOf_union]
  exact Finset.card_union_of_disjoint (Finset.disjoint_filter_filter hPQ)

theorem Covered.mono (h : Covered s a Q) (hPQ : P ⊆ Q) : Covered s a P := by
  intro f
  have hle := Finset.card_le_card (Finset.filter_subset_filter (fun p => mapping s a p = some f) hPQ)
  have := h f
  simp only [mappingsOf] at *
  omega

/-- Pages outside `P` keep their frames. -/
theorem Unmapped.mappingsOf_eq (h : Unmapped s s' a P) (hPQ : Disjoint P Q) (f : ℕ) :
    mappingsOf s' a Q f = mappingsOf s a Q f := by
  refine Finset.filter_congr fun p hp => ?_
  rw [h.mapping, if_neg fun hc => Finset.disjoint_left.mp hPQ hc.2 hp]

/-- After `P` the counters still cover `Q`. -/
theorem Unmapped.covered (h : Unmapped s s' a P) (hPQ : Disjoint P Q)
    (hc : Covered s a (P ∪ Q)) : Covered s' a Q := by
  intro f
  have hle := hc f
  rw [card_mappingsOf_union hPQ] at hle
  rw [h.mappingsOf_eq hPQ, h.ref]
  omega

/-- **First `P`, then `Q`.**  A frame that `P` leaves without references has no page in `Q`. -/
theorem Unmapped.trans (h₁ : Unmapped s s' a P) (h₂ : Unmapped s' s'' a Q) (hPQ : Disjoint P Q)
    (hc : Covered s a (P ∪ Q)) : Unmapped s s'' a (P ∪ Q) := by
  have hQ := h₁.mappingsOf_eq hPQ
  have href : ∀ f, s''.ref f = s.ref f - (mappingsOf s a (P ∪ Q) f).card := by
    intro f
    rw [h₂.ref, h₁.ref, hQ, card_mappingsOf_union hPQ]
    push_cast
    exact sub_sub _ _ _
  refine ⟨fun b q => ?_, href, fun f => ?_, h₂.data.trans h₁.data, h₁.tables.trans h₂.tables, ?_⟩
  · rw [h₂.pte]
    by_cases hP : b = a ∧ q ∈ P ∧ has (s.pte b q).flags PTE_V = true
    · have hpte : s'.pte b q = Pte.zero := by rw [h₁.pte, if_pos hP]
      rw [hpte, ite_self, if_pos ⟨hP.1, Finset.mem_union_left _ hP.2.1, hP.2.2⟩]
    · have hpte : s'.pte b q = s.pte b q := by rw [h₁.pte, if_neg hP]
      rw [hpte]
      have hiff : (b = a ∧ q ∈ Q ∧ has (s.pte b q).flags PTE_V = true) ↔
          (b = a ∧ q ∈ P ∪ Q ∧ has (s.pte b q).flags PTE_V = true) := by
        refine and_congr_right fun hb => and_congr_left fun hv => ?_
        rw [Finset.mem_union]
        exact (or_iff_right fun hq => hP ⟨hb, hq, hv⟩).symm
      simp only [hiff]
  · rw [h₂.free, h₁.free, hQ, mappingsOf_union, Finset.union_nonempty]
    have hf := hc f
    rw [card_mappingsOf_union hPQ] at hf
    by_cases hq : (mappingsOf s a Q f).Nonempty
    · have hpos := Finset.card_pos.mpr hq
      have h₁f := h₁.ref f
      -- a reference from `Q` is still there after `P`
      have hne : s'.ref f ≠ 0 := by omega
      simp only [hq, hne, and_false, or_false, or_true, true_and]
    · have hzero : (mappingsOf s a Q f).card = 0 := by
        rw [Finset.not_nonempty_iff_eq_empty.mp hq, Finset.card_empty]
      have heq : s''.ref f = s'.ref f := by
        rw [h₂.ref, hQ, hzero]
        simp
      simp only [hq, heq, false_and, or_false]
  · obtain ⟨fs, hfs, hmem⟩ := h₁.freed
    obtain ⟨gs, hgs, hmem'⟩ := h₂.freed
    refine ⟨gs ++ fs, by rw [hgs, hfs, List.map_append, List.append_assoc], fun f hf => ?_⟩
    rw [mappingsOf_union, Finset.union_nonempty]
    rcases List.mem_append.mp hf with hf | hf
    · exact Or.inr (hQ f ▸ hmem' f hf)
    · exact Or.inl (hmem f hf)

/-! ### `page_remove_pte` -/

theorem mappingsOf_singleton (s : State) (a p f : ℕ) :
    mappingsOf s a {p} f = if mapping s a p = some f then {p} else ∅ :=
  Finset.filter_singleton _ _

/-- **`page_remove_pte`**: the frame goes with its last reference. -/
theorem pageRemovePte_spec (s : State) (a p : ℕ) : Unmapped s (pageRemovePte a p s) a {p} := by
  cases hx : mapping s a p with
  | none =>
    have heq : pageRemovePte a p s = s := by
      rw [pageRemovePte, mapping_eq_none.mp hx]
      rfl
    rw [heq]
    refine Unmapped.of_none fun q hq => ?_
    rw [Finset.mem_singleton.mp hq, hx]
  | some f =>
    obtain ⟨hv, hppn⟩ := mapping_eq_some.mp hx
    have ht := table_of_mapping hx
    have hdec : (pageRefDec f s).ref f = s.ref f - 1 := Function.update_self _ _ _
    -- the state before the entry is cleared
    obtain ⟨t, heq, hpgdir, href, hfree, hdata, hfreed⟩ : ∃ t : State,
        pageRemovePte a p s = t.setPte a p Pte.zero ∧ t.pgdir = s.pgdir ∧
          t.ref = Function.update s.ref f (s.ref f - 1) ∧
          (∀ g, g ∈ t.free ↔ g ∈ s.free ∨ g = f ∧ s.ref f - 1 = 0) ∧ t.data = s.data ∧
          ∃ fs : List ℕ, t.freed = fs.map Released.user ++ s.freed ∧ ∀ g ∈ fs, g = f := by
      by_cases h0 : s.ref f - 1 = 0
      · refine ⟨freePage (.user f) (pageRefDec f s), ?_, rfl, ?_, fun g => ?_, rfl, [f], rfl,
          fun g hg => List.mem_singleton.mp hg⟩
        · simp only [pageRemovePte, hv, if_true, hppn, hdec, h0]
        · simp only [freePage, setPageRef, pageRefDec, Released.page, Function.update_idem, h0]
        · show g ∈ insert f s.free ↔ _
          rw [Finset.mem_insert, and_iff_left h0]
          exact Or.comm
      · refine ⟨pageRefDec f s, ?_, rfl, rfl, fun g => ?_, rfl, [], rfl, nofun⟩
        · simp only [pageRemovePte, hv, if_true, hppn, hdec, if_neg h0]
        · rw [and_iff_right_of_imp fun hc => absurd hc h0]
          exact (or_iff_left h0).symm
    have htab : t.table = s.table := by
      funext b q
      simp only [State.table, hpgdir]
    have hpte : ∀ b q, t.pte b q = s.pte b q := fun b q => by simp only [State.pte, htab]
    have hsingle := mappingsOf_singleton s a p
    rw [heq]
    refine ⟨fun b q => ?_, fun g => ?_, fun g => ?_, ?_, ?_, ?_⟩
    · rw [Paging.pte_setPte (by rw [htab]; exact ht), hpte]
      by_cases hbq : b = a ∧ q = p
      · obtain ⟨rfl, rfl⟩ := hbq
        rw [if_pos ⟨rfl, rfl⟩, if_pos ⟨rfl, Finset.mem_singleton_self q, hv⟩]
      · rw [if_neg hbq, if_neg fun hc => hbq ⟨hc.1, Finset.mem_singleton.mp hc.2.1⟩]
    · rw [setPte_ref, href, hsingle, hx]
      by_cases hg : g = f
      · rw [hg, Function.update_self, if_pos rfl, Finset.card_singleton, Nat.cast_one]
      · rw [Function.update_of_ne hg, if_neg fun hc => hg (Option.some.inj hc).symm,
          Finset.card_empty, Nat.cast_zero, sub_zero]
    · rw [setPte_free, setPte_ref, hfree, href, hsingle, hx]
      by_cases hg : g = f
      · simp [hg]
      · have hne : some f ≠ some g := fun hc => hg (Option.some.inj hc).symm
        simp [hg, hne]
    · rw [setPte_data, hdata]
    · have hsame := sameTables_setPte t a p Pte.zero
      refine ⟨fun b i => ?_, fun b q => ?_⟩
      · rw [hsame.dir, hpgdir]
      · rw [hsame.table, htab]
    · rw [setPte_freed]
      obtain ⟨fs, hfs, hmem⟩ := hfreed
      refine ⟨fs, hfs, fun g hg => ?_⟩
      rw [hsingle, hx, hmem g hg, if_pos rfl]
      exact Finset.singleton_nonempty p

/-! ### `unmap_range` -/

/-- The pages up to the next region share one table. -/
theorem mapping_of_region (ht : s.table a start = none) (h₁ : start ≤ q) (h₂ : q < nextRegion start) :
    mapping s a q = none := by
  rw [mapping_eq_none, pte_of_none ((table_congr s a (Cow.region_eq h₁ h₂)).trans ht)]
  decide

/-- **The loop of `unmap_range`.** -/
theorem unmapLoop_spec (a stop : ℕ) : ∀ k start s, stop ≤ start + k →
    Covered s a (Finset.Ico start stop) →
    Unmapped s (unmapLoop a stop k start s) a (Finset.Ico start stop) := by
  intro k
  induction k with
  | zero =>
    intro start s hk _
    rw [Finset.Ico_eq_empty (by omega)]
    exact Unmapped.of_none nofun
  | succ k ih =>
    intro start s hk hc
    rw [unmapLoop]
    by_cases hlt : start < stop
    swap
    · rw [if_neg hlt, Finset.Ico_eq_empty hlt]
      exact Unmapped.of_none nofun
    rw [if_pos hlt]
    cases ht : s.table a start with
    | none =>
      have hlt' := lt_nextRegion start
      have hsub : Finset.Ico (nextRegion start) stop ⊆ Finset.Ico start stop :=
        Finset.Ico_subset_Ico_left (Nat.le_of_lt hlt')
      refine (ih (nextRegion start) s (by omega) (hc.mono hsub)).congr fun q hq => ?_
      have hge : start ≤ q → nextRegion start ≤ q := fun h₁ =>
        Nat.le_of_not_lt fun h₂ => hq (mapping_of_region ht h₁ h₂)
      rw [Finset.mem_Ico, Finset.mem_Ico]
      omega
    | some pt =>
      have hone : (if s.pte a start ≠ Pte.zero then pageRemovePte a start s else s) =
          pageRemovePte a start s := by
        split
        · rfl
        · rename_i hz
          rw [pageRemovePte, not_not.mp hz]
          rfl
      simp only [hone]
      have hins : Finset.Ico start stop = {start} ∪ Finset.Ico (start + 1) stop := by
        ext q
        rw [Finset.mem_union, Finset.mem_singleton, Finset.mem_Ico, Finset.mem_Ico]
        omega
      have hdisj : Disjoint {start} (Finset.Ico (start + 1) stop) := by
        rw [Finset.disjoint_singleton_left, Finset.mem_Ico]
        omega
      have hone' := pageRemovePte_spec s a start
      rw [hins] at hc ⊢
      exact hone'.trans (ih (start + 1) _ (by omega) (hone'.covered hdisj hc)) hdisj hc

theorem unmapRange_spec (hr : UserRange start stop)
    (hc : Covered s a (Finset.Ico (start / PGSIZE) (stop / PGSIZE))) :
    ∃ s', unmapRange a start stop s = some s' ∧
      Unmapped s s' a (Finset.Ico (start / PGSIZE) (stop / PGSIZE)) :=
  ⟨_, if_pos hr, unmapLoop_spec a (stop / PGSIZE) _ _ s (by omega) hc⟩

end Ucore.Paging
