import Ucore.FreeList.Operations

/-!
# The requests of the list-based allocators

`init_memmap`, `free_pages` and `alloc_pages` of the three managers, each described by its effect on
the extents of the free list:

* **`initMemmap_spec`** and **`freePages_spec`**: the list stays sparse and covers the pages given;
* **`allocPages_spec`**: `NULL` without a change when no extent is large enough, otherwise the first
  pages of the extent that the manager's search prefers.
-/

namespace Ucore.FreeList

open LinkedRing Extent

variable {lo hi k m base : ℕ} {s : FreeArea} {bs us vs : List (ℕ × ℕ)} {b c : ℕ × ℕ}

/-! ### Giving pages to the manager -/

/-- The heads around the place are smaller and larger. -/
theorem heads_lt_of_between (hb : Between us (base, k) vs) (hu : ∀ a ∈ us, 0 < a.2) :
    (∀ a ∈ heads us, a < base) ∧ ∀ a ∈ heads vs, base < a := by
  have := hb.pos
  constructor <;> intro a ha <;> obtain ⟨c, hc, rfl⟩ := List.mem_map.mp ha
  · have h₁ := hb.left c hc
    have h₂ := hu c hc
    simp only at h₁
    omega
  · have h₁ := hb.right c hc
    simp only at this h₁
    omega

/-- The insertion procedure of a manager. -/
def ListManager.insert : ListManager → ℕ → FreeArea → Option FreeArea
  | slub => slubInsert
  | _ => insertBlock

/-- A range may be inserted: the first-fit and best-fit managers must not have to put it at the end
of a nonempty list. -/
def ListManager.MayInsert (m : ListManager) (base : ℕ) (bs : List (ℕ × ℕ)) : Prop :=
  m = slub ∨ bs = [] ∨ ∃ b ∈ bs, base < b.1

theorem ListManager.inserts {m : ListManager} (hb : Between us (base, k) vs)
    (hu : ∀ a ∈ us, 0 < a.2) (hm : m.MayInsert base (us ++ vs)) :
    Inserts m.insert base (heads us) (heads vs) := by
  obtain ⟨h₁, h₂⟩ := heads_lt_of_between hb hu
  have hend : m = slub ∨ heads us = [] ∨ heads vs ≠ [] := by
    rcases hm with h | h | ⟨a, ha, hlt⟩
    · exact Or.inl h
    · rw [(List.append_eq_nil_iff.mp h).1]
      exact Or.inr (Or.inl rfl)
    · refine Or.inr (Or.inr fun hv => ?_)
      rw [List.map_eq_nil_iff] at hv
      rw [hv, List.append_nil] at ha
      have := h₁ a.1 (List.mem_map_of_mem ha)
      omega
  cases m with
  | slub => exact slubInsert_inserts h₁ h₂
  | default => exact insertBlock_inserts h₁ h₂ (hend.resolve_left (by decide))
  | bestFit => exact insertBlock_inserts h₁ h₂ (hend.resolve_left (by decide))

theorem heads_append_map (us vs : List (ℕ × ℕ)) : heads (us ++ vs) = heads us ++ heads vs :=
  List.map_append

theorem mem_heads_cons {i : ℕ} : i ∈ heads (b :: bs) ↔ i = b.1 ∨ i ∈ heads bs := by
  rw [heads, List.map_cons, List.mem_cons]

/-- **Free.**  The freed pages join the cover and the list stays sparse. -/
theorem freePages_spec (m : ListManager) (h : Rep lo hi s bs) (hs : Sparse bs) (hk : 0 < k)
    (hlo : lo ≤ base) (hhi : base + k ≤ hi) (hd : Disjoint (Set.Ico base (base + k)) (cover bs))
    (hm : m.MayInsert base bs) (hsize : hi - lo + 1 < 2 ^ 32) :
    ∃ s' bs', m.pmm.freePages base k s = some s' ∧ Rep lo hi s' bs' ∧ Sparse bs' ∧
      cover bs' = cover bs ∪ Set.Ico base (base + k) := by
  obtain ⟨us, vs, rfl, hb⟩ := hs.exists_between hk hd
  obtain ⟨hu, hv, -⟩ := sparse_append.mp hs
  obtain ⟨hs', hcov⟩ := hs.release hb
  have hinside : ∀ b ∈ us ++ (base, k) :: vs, lo ≤ b.1 ∧ b.1 + b.2 ≤ hi := by
    intro a ha
    rcases List.mem_append.mp ha with ha | ha
    · exact h.inside a (List.mem_append_left _ ha)
    · rcases List.mem_cons.mp ha with rfl | ha
      · exact ⟨hlo, hhi⟩
      · exact h.inside a (List.mem_append_right _ ha)
  have hnr := h.nrFree
  rw [size_append] at hnr
  -- the pages of the extents and of the range are all different
  have hfits : s.nrFree + k + 1 < 2 ^ 32 := by
    have h₁ : size us ≤ base - lo := size_le_of_sparse hu fun a ha =>
      ⟨(h.inside a (List.mem_append_left _ ha)).1, hb.left a ha⟩
    have h₂ : size vs ≤ hi - (base + k) := size_le_of_sparse hv fun a ha =>
      ⟨hb.right a ha, (h.inside a (List.mem_append_right _ ha)).2⟩
    omega
  have hnotHead : ∀ i, base ≤ i → i < base + k → i ∉ heads (us ++ vs) := by
    intro i h₁ h₂ hi'
    obtain ⟨a, ha, rfl⟩ := List.mem_map.mp hi'
    have hpos := hs.pos a ha
    exact Set.disjoint_left.mp hd ⟨h₁, h₂⟩ ⟨a, ha, le_rfl, by omega⟩
  have hcheck : ∀ i, base ≤ i → i < base + k → inUse (s.page i) = true := by
    intro i h₁ h₂
    have hbit : (s.page i).propertyBit ≠ true := fun ht =>
      hnotHead i h₁ h₂ ((h.bit i (by omega) (by omega)).mp ht)
    rw [inUse, h.reserved i (by omega) (by omega), Bool.eq_false_of_not_eq_true hbit]
    rfl
  have hlist := h.list
  have hlen := h.length_le hs
  rw [heads_append_map] at hlist hlen
  have hadd : ∀ reset : Page → Page,
      (∀ pg, (reset pg).reserved = false ∧ (reset pg).propertyBit = false) →
      ∃ s', addRange inUse reset m.insert base k s = some s' ∧
        Rep lo hi s' (us ++ (base, k) :: vs) := fun reset hreset =>
    addRange_spec hb hlist hlen hcheck hreset (m.inserts hb hu.pos hm)
      (fun a ha => ⟨hs.pos a ha, h.property a ha⟩)
      (fun i h₁ h₂ _ => ⟨h.reserved i h₁ h₂, by
        rw [h.bit i h₁ h₂, heads_append_map, List.mem_append]⟩)
      hinside hnr hfits h.npage
  have hmerge : ∀ reset : Page → Page,
      (∀ pg, (reset pg).reserved = false ∧ (reset pg).propertyBit = false) →
      ∃ s', (addRange inUse reset m.insert base k s).map (pageTryMerge base) = some s' ∧
        Rep lo hi s' (release us (base, k) vs) := fun reset hreset => by
    obtain ⟨s', hs', hrep⟩ := hadd reset hreset
    exact ⟨_, by rw [hs']; rfl, pageTryMerge_spec (b := (base, k)) hrep⟩
  obtain ⟨s', heq, hrep⟩ : ∃ s', m.pmm.freePages base k s = some s' ∧
      Rep lo hi s' (release us (base, k) vs) := by
    cases m with
    | default => exact hmerge _ fun pg => ⟨rfl, rfl⟩
    | bestFit => exact hmerge _ fun pg => ⟨rfl, rfl⟩
    | slub => exact hmerge _ fun pg => ⟨rfl, rfl⟩
  exact ⟨s', _, heq, hrep, hs', hcov⟩

/-- `init_memmap` of reserved pages, right after `init`: one extent. -/
theorem initMemmap_spec (m : ListManager) (hk : 0 < k)
    (hres : ∀ i, base ≤ i → i < base + k → (s.page i).reserved = true)
    (hnp : base + k ≤ s.npage) (hsize : k + 1 < 2 ^ 32) :
    ∃ s', m.pmm.initMemmap base k (m.pmm.init s) = some s' ∧
      Rep base (base + k) s' [(base, k)] := by
  have hinit : m.pmm.init s = areaInit s := by cases m <;> rfl
  have hb : Between [] (base, k) [] := ⟨hk, by simp, by simp⟩
  have hlist : IsList (areaInit s).freeList (heads [] ++ heads []) := isList_nil s.freeList
  have hadd : ∀ reset : Page → Page,
      (∀ pg, (reset pg).reserved = false ∧ (reset pg).propertyBit = false) →
      ∃ s', addRange Page.reserved reset m.insert base k (areaInit s) = some s' ∧
        Rep base (base + k) s' [(base, k)] := fun reset hreset =>
    addRange_spec hb hlist (Nat.zero_le _) hres hreset
      (m.inserts hb (by simp) (Or.inr (Or.inl rfl))) (by simp)
      (fun i h₁ h₂ hn => absurd ⟨h₁, h₂⟩ hn) (by simp) rfl
      (by simpa [areaInit] using hsize) hnp
  rw [hinit]
  cases m with
  | default => exact hadd _ fun pg => ⟨rfl, rfl⟩
  | bestFit => exact hadd _ fun pg => ⟨rfl, rfl⟩
  | slub =>
    obtain ⟨s', heq, hrep⟩ := hadd (fun pg => (pg.clearFlags.setProperty 0).setPageRef 0)
      fun pg => ⟨rfl, rfl⟩
    refine ⟨pageTryMerge base s', ?_,
      pageTryMerge_spec (show Rep base (base + k) s' ([] ++ (base, k) :: []) from hrep)⟩
    change (addRange _ _ _ _ _ _).map _ = _
    rw [show slubInsert = ListManager.slub.insert from rfl, heq]
    rfl

/-! ### Taking pages from an extent -/

theorem rest_of_lt (h : k < b.2) : rest b k = [(b.1 + k, b.2 - k)] := if_pos h

theorem rest_of_le (h : b.2 ≤ k) : rest b k = [] := if_neg (by omega)

theorem mem_heads_rest {i : ℕ} : i ∈ heads (rest b k) ↔ k < b.2 ∧ i = b.1 + k := by
  by_cases h : k < b.2
  · simp [rest_of_lt h, h]
  · simp [rest_of_le (Nat.le_of_not_lt h), h]

/-- The descriptors after the first `k` pages of the extent `b` have been taken: these pages are no
heads, the page after them is the head of what is left, and the others are as they were. -/
structure Taken (page page' : ℕ → Page) (b : ℕ × ℕ) (k : ℕ) : Prop where
  rest : k < b.2 → (page' (b.1 + k)).property = b.2 - k ∧ (page' (b.1 + k)).propertyBit = true
  taken : ∀ i, b.1 ≤ i → i < b.1 + k → (page' i).propertyBit = false
  other : ∀ i, ¬ (b.1 ≤ i ∧ i < b.1 + k) → (k < b.2 → i ≠ b.1 + k) → page' i = page i
  reserved : ∀ i, (page' i).reserved = (page i).reserved

theorem Rep.take (h : Rep lo hi s (us ++ b :: vs)) (hs : Sparse (us ++ b :: vs)) (hk : k ≤ b.2)
    {L : Links (Option ℕ)} {page' : ℕ → Page} (hL : IsList L (heads (us ++ rest b k ++ vs)))
    (ht : Taken s.page page' b k) :
    Rep lo hi ⟨L, s.nrFree - k, page', s.npage⟩ (us ++ rest b k ++ vs) := by
  have hmem : ∀ a ∈ us ++ vs, a ∈ us ++ b :: vs ∧ ¬ (b.1 ≤ a.1 ∧ a.1 < b.1 + k) ∧
      a.1 ≠ b.1 + k := by
    intro a ha
    have ha' : a ∈ us ++ b :: vs := by
      rcases List.mem_append.mp ha with ha | ha
      · exact List.mem_append_left _ ha
      · exact List.mem_append_right _ (List.mem_cons_of_mem b ha)
    have hne : a ≠ b := by
      rintro rfl
      rcases List.mem_append.mp ha with ha | ha
      · exact h.head_ne.1 a ha rfl
      · exact h.head_ne.2 a ha rfl
    have := hs.pos a ha'
    rcases hs.apart ha' (List.mem_append_right us List.mem_cons_self) with hab | hab | hab
    · exact absurd hab hne
    · exact ⟨ha', by omega, by omega⟩
    · exact ⟨ha', by omega, by omega⟩
  have hold : ∀ a ∈ us ++ vs, page' a.1 = s.page a.1 := fun a ha =>
    ht.other a.1 (hmem a ha).2.1 fun _ => (hmem a ha).2.2
  have hb := h.inside b (by simp)
  have hnr := h.nrFree
  rw [size_append, size_cons] at hnr
  have hcases : ∀ a ∈ us ++ rest b k ++ vs,
      a ∈ us ++ vs ∨ k < b.2 ∧ a = (b.1 + k, b.2 - k) := by
    intro a ha
    rw [List.append_assoc, List.mem_append, List.mem_append] at ha
    rcases ha with ha | ha | ha
    · exact Or.inl (List.mem_append_left _ ha)
    · by_cases hlt : k < b.2
      · rw [rest_of_lt hlt] at ha
        exact Or.inr ⟨hlt, List.mem_singleton.mp ha⟩
      · rw [rest_of_le (by omega)] at ha
        exact absurd ha List.not_mem_nil
    · exact Or.inl (List.mem_append_right _ ha)
  have hsize : size (rest b k) = b.2 - k := by
    by_cases hlt : k < b.2
    · rw [rest_of_lt hlt]
      rfl
    · rw [rest_of_le (by omega)]
      change 0 = _
      omega
  refine ⟨hL, fun a ha => ?_, fun i hlo hhi => ?_, fun i hlo hhi => ?_, fun a ha => ?_, ?_, ?_,
    h.npage⟩
  · rcases hcases a ha with ha | ⟨hlt, rfl⟩
    · exact (congrArg Page.property (hold a ha)).trans (h.property a (hmem a ha).1)
    · exact (ht.rest hlt).1
  · have hbit := h.bit i hlo hhi
    simp only [heads_append_map, List.mem_append, mem_heads_cons] at hbit ⊢
    have hnot : (b.1 ≤ i ∧ i < b.1 + k) ∨ i = b.1 + k → i ∉ heads us ∧ i ∉ heads vs := by
      refine fun hin => ⟨fun hi' => ?_, fun hi' => ?_⟩ <;>
        obtain ⟨a, ha, rfl⟩ := List.mem_map.mp hi'
      · exact hin.elim (hmem a (List.mem_append_left _ ha)).2.1
          (hmem a (List.mem_append_left _ ha)).2.2
      · exact hin.elim (hmem a (List.mem_append_right _ ha)).2.1
          (hmem a (List.mem_append_right _ ha)).2.2
    rw [mem_heads_rest]
    by_cases hin : b.1 ≤ i ∧ i < b.1 + k
    · have hne : i ≠ b.1 + k := by omega
      simp [ht.taken i hin.1 hin.2, hnot (Or.inl hin), hne]
    · by_cases hrest : k < b.2 ∧ i = b.1 + k
      · simp [hrest.2, (ht.rest hrest.1).2, hrest.1]
      · have hpos := hs.pos b (by simp)
        have hib : i ≠ b.1 := by omega
        rw [ht.other i hin fun hlt hi' => hrest ⟨hlt, hi'⟩, hbit]
        simp [hib, hrest]
  · rw [ht.reserved]
    exact h.reserved i hlo hhi
  · rcases hcases a ha with ha | ⟨hlt, rfl⟩
    · exact h.inside a (hmem a ha).1
    · exact ⟨by simp only; omega, by simp only; omega⟩
  · rw [List.append_assoc, size_append, size_append, hsize]
    simp only
    omega
  · have := h.fits
    simp only
    omega

theorem Rep.list_split (h : Rep lo hi s (us ++ b :: vs)) :
    IsList s.freeList (heads us ++ b.1 :: heads vs) := by
  have hl := h.list
  rwa [heads_append_map, heads, heads, List.map_cons] at hl

theorem heads_take_of_lt (h : k < b.2) :
    heads (us ++ rest b k ++ vs) = heads us ++ (b.1 + k) :: heads vs := by
  rw [rest_of_lt h, List.append_assoc, heads_append_map, List.singleton_append, heads, heads,
    List.map_cons]

theorem heads_take_of_le (h : b.2 ≤ k) : heads (us ++ rest b k ++ vs) = heads us ++ heads vs := by
  rw [rest_of_le h, List.append_nil, heads_append_map]

/-- The heads around the remainder of an extent. -/
theorem heads_lt_of_sparse (hs : Sparse (us ++ b :: vs)) (hk : k ≤ b.2) :
    (∀ a ∈ heads us, a < b.1 + k) ∧ ∀ a ∈ heads vs, b.1 + k < a := by
  obtain ⟨-, hbv, hsep⟩ := sparse_append.mp hs
  constructor <;> intro a ha <;> obtain ⟨c, hc, rfl⟩ := List.mem_map.mp ha
  · have := hsep c hc b List.mem_cons_self
    omega
  · have := (sparse_cons.mp hbv).2.2 c hc
    omega

/-- First fit and best fit put the remainder where the block was. -/
theorem takeFrom_spec (h : Rep lo hi s (us ++ b :: vs)) (hs : Sparse (us ++ b :: vs))
    (hk₀ : 0 < k) (hk : k ≤ b.2) :
    Rep lo hi (takeFrom k b.1 s) (us ++ rest b k ++ vs) := by
  have hl := h.list_split
  have hprop := h.property b (by simp)
  obtain ⟨h₁, h₂⟩ := heads_lt_of_sparse hs hk
  have hcleared : b.1 ≤ b.1 ∧ b.1 < b.1 + k := by omega
  have hnobit : ∀ i, b.1 ≤ i → i < b.1 + k → i ≠ b.1 → (s.page i).propertyBit = false := by
    intro i hlo hhi hne
    have hin := h.inside b (by simp)
    refine Bool.eq_false_of_not_eq_true fun ht => ?_
    obtain ⟨a, ha, rfl⟩ := List.mem_map.mp ((h.bit i (by omega) (by omega)).mp ht)
    rcases hs.apart ha (List.mem_append_right us List.mem_cons_self) with rfl | hab | hab
    · exact hne rfl
    · have := hs.pos a ha
      omega
    · omega
  by_cases hlt : k < b.2
  · have htake : takeFrom k b.1 s = ⟨listAdd (lastEntry (heads us)) (some (b.1 + k))
        (listDel (some b.1) s.freeList), s.nrFree - k, Function.update (Function.update s.page
          (b.1 + k) (((s.page (b.1 + k)).setProperty (b.2 - k)).setPageProperty)) b.1
          ((s.page b.1).clearPageProperty), s.npage⟩ := by
      have hne : b.1 ≠ b.1 + k := by omega
      simp only [takeFrom, hl.prev_some, hprop, gt_iff_lt, hlt, if_true, FreeArea.modifyPage,
        Function.update_of_ne hne]
    rw [htake]
    refine h.take hs hk ?_ ⟨fun _ => ?_, fun i hlo hhi => ?_, fun i hin hne => ?_, fun i => ?_⟩
    · rw [heads_take_of_lt hlt]
      exact hl.del.add (not_mem_of_lt h₁ h₂)
    · rw [Function.update_of_ne (by omega), Function.update_self]
      exact ⟨rfl, rfl⟩
    · by_cases hib : i = b.1
      · rw [hib, Function.update_self]
        rfl
      · rw [Function.update_of_ne hib, Function.update_of_ne (by omega)]
        exact hnobit i hlo hhi hib
    · rw [Function.update_of_ne (by rintro rfl; exact hin hcleared),
        Function.update_of_ne (hne hlt)]
    · simp only [Function.update_apply]
      split
      · next hib => rw [hib]; rfl
      · split
        · next hik => rw [hik]; rfl
        · rfl
  · have htake : takeFrom k b.1 s = ⟨listDel (some b.1) s.freeList, s.nrFree - k,
        Function.update s.page b.1 ((s.page b.1).clearPageProperty), s.npage⟩ := by
      simp only [takeFrom, hprop, gt_iff_lt, hlt, if_false, FreeArea.modifyPage]
    rw [htake]
    refine h.take hs hk ?_ ⟨fun h' => absurd h' hlt, fun i hlo hhi => ?_, fun i hin _ => ?_,
      fun i => ?_⟩
    · rw [heads_take_of_le (Nat.le_of_not_lt hlt)]
      exact hl.del
    · by_cases hib : i = b.1
      · rw [hib, Function.update_self]
        rfl
      · rw [Function.update_of_ne hib]
        exact hnobit i hlo hhi hib
    · rw [Function.update_of_ne (by rintro rfl; exact hin hcleared)]
    · simp only [Function.update_apply]
      split
      · next hib => rw [hib]; rfl
      · rfl

/-- The part of `slub_page_alloc` after the search. -/
theorem slubTake_spec (h : Rep lo hi s (us ++ b :: vs)) (hs : Sparse (us ++ b :: vs))
    (hk : k ≤ b.2) :
    ∃ s₁ s₂, slubRemain k b.1 b.2 { s with freeList := listDel (some b.1) s.freeList } = some s₁ ∧
      eachPage (fun _ => true) (fun pg => (pg.setProperty 0).clearPageProperty) k b.1 s₁ =
        some s₂ ∧
      Rep lo hi { s₂ with nrFree := s₂.nrFree - k } (us ++ rest b k ++ vs) := by
  have hl := h.list_split
  have hlen := h.length_le hs
  obtain ⟨h₁, h₂⟩ := heads_lt_of_sparse hs hk
  rw [heads_append_map, List.length_append] at hlen
  rw [slubRemain]
  by_cases hlt : k < b.2
  · obtain ⟨L, hins, hL⟩ := slubInsert_inserts h₁ h₂ (FreeArea.modifyPage
      { s with freeList := listDel (some b.1) s.freeList } (b.1 + k) fun pg =>
        (pg.setProperty (b.2 - k)).setPageProperty) hl.del (by
          rw [List.length_append]
          rw [heads, List.length_map, List.length_map, List.length_cons] at hlen
          change (heads us).length + (heads vs).length ≤ s.npage
          rw [heads, List.length_map, List.length_map]
          omega)
    rw [if_pos hlt]
    refine ⟨_, _, hins, eachPage_spec fun _ _ _ => rfl, h.take hs hk ?_ ⟨fun _ => ?_,
      fun i hlo hhi => ?_, fun i hin hne => ?_, fun i => ?_⟩⟩
    · rw [heads_take_of_lt hlt]
      exact hL
    · simp only [modifyPage_page, Function.update_self]
      rw [if_neg (by omega)]
      exact ⟨rfl, rfl⟩
    · simp only [if_pos (And.intro hlo hhi)]
      rfl
    · simp only [if_neg hin, modifyPage_page, Function.update_of_ne (hne hlt)]
    · simp only [modifyPage_page, Function.update_apply]
      split <;> split
      · next hik => rw [hik]; rfl
      · rfl
      · next hik => rw [hik]; rfl
      · rfl
  · rw [if_neg hlt]
    refine ⟨_, _, rfl, eachPage_spec fun _ _ _ => rfl, h.take hs hk ?_ ⟨fun h' => absurd h' hlt,
      fun i hlo hhi => ?_, fun i hin _ => ?_, fun i => ?_⟩⟩
    · rw [heads_take_of_le (Nat.le_of_not_lt hlt)]
      exact hl.del
    · simp only [if_pos (And.intro hlo hhi)]
      rfl
    · simp only [if_neg hin]
    · simp only
      split <;> rfl

/-! ### The searches -/

theorem firstFit_spec (h : Rep lo hi s bs) (hs : Sparse bs) :
    firstFit k s = some ((bs.find? fun b => k ≤ b.2).map Prod.fst) := by
  have hbody := whileList_find (fun p => (s.page p).property ≥ k) (heads bs)
  simp only [decide_eq_true_eq] at hbody
  rw [firstFit, h.list.whileNext _ (Nat.lt_succ_of_le (h.length_le hs)), hbody, List.find?_map]
  congr 2
  rw [← List.head?_filter, ← List.head?_filter]
  refine congrArg List.head? (List.filter_congr fun b hb => ?_)
  simp only [Function.comp_apply, h.property b hb, ge_iff_le]

/-- The first of the smallest extents with `k` pages. -/
abbrev best (k : ℕ) (bs : List (ℕ × ℕ)) : Option (ℕ × ℕ) := bs.foldl (better k) none

theorem bestFit_spec (h : Rep lo hi s bs) (hs : Sparse bs) :
    ∃ minSize, bestFit k s = some ((best k bs).map Prod.fst, minSize) := by
  have hle : ∀ b ∈ bs, b.2 < s.nrFree + 1 := fun b hb => by
    obtain ⟨us, vs, rfl⟩ := List.append_of_mem hb
    rw [h.nrFree, size_append, size_cons]
    omega
  refine ⟨((best k bs).elim (s.nrFree + 1) Prod.snd), ?_⟩
  rw [bestFit, h.list.whileNext _ (Nat.lt_succ_of_le (h.length_le hs)), u32_of_lt h.fits,
    whileList_eq_foldl (f := fun (acc : Option ℕ × ℕ) p =>
      if (s.page p).property ≥ k ∧ (s.page p).property < acc.2 then
        (some p, (s.page p).property) else acc)
      _ fun acc p _ => by simp only; split <;> rfl, List.foldl_map]
  congr 1
  refine List.foldl_rel (r := fun acc best => acc = (Option.map Prod.fst best,
    Option.elim best (s.nrFree + 1) Prod.snd)) rfl fun b hb acc best hrel => ?_
  subst hrel
  simp only [h.property b hb, better]
  cases best with
  | none => simp [hle b hb]; split <;> rfl
  | some c => simp; split <;> rfl

theorem slubBest_spec (h : Rep lo hi s bs) (hs : Sparse bs) :
    slubBest k s = some (some ((best k bs).map Prod.fst, (best k bs).elim 0 Prod.snd)) := by
  have hbit : ∀ p ∈ heads bs, (s.page p).propertyBit = true := fun p hp => by
    obtain ⟨b, hb, rfl⟩ := List.mem_map.mp hp
    have := h.inside b hb
    have := hs.pos b hb
    exact (h.bit b.1 (by omega) (by omega)).mpr hp
  rw [slubBest, h.list.whileNext _ (Nat.lt_succ_of_le (h.length_le hs)),
    whileList_eq_foldl (f := fun (acc : Option (Option ℕ × ℕ)) p => acc.map fun acc =>
      if (s.page p).property ≥ k ∧ (acc.1 = none ∨ (s.page p).property < acc.2) then
        (some p, (s.page p).property) else acc)
      _ fun acc p hp => by rw [if_pos (hbit p hp)], List.foldl_map]
  congr 1
  refine List.foldl_rel (r := fun acc best => acc = some (Option.map Prod.fst best,
    Option.elim best 0 Prod.snd)) rfl fun b hb acc best hrel => ?_
  subst hrel
  simp only [h.property b hb, better]
  cases best with
  | none => simp; split <;> rfl
  | some c => simp; split <;> rfl

/-! ### Allocation -/

/-- Where a manager finds the pages, as a property of the set of free pages. -/
def ListManager.Fit : ListManager → Set ℕ → ℕ → ℕ → Prop
  | default => FirstFit
  | bestFit => BestFit
  | slub => BestFit

/-- What `alloc_pages(k)` does to the extents `bs`. -/
def Allocated (m : ListManager) (lo hi : ℕ) (k : ℕ) (s : FreeArea) (bs : List (ℕ × ℕ)) :
    Option ℕ × FreeArea → Prop
  | (none, s') => s' = s ∧ ∀ b ∈ bs, b.2 < k
  | (some p, s') => m.Fit (cover bs) k p ∧ Set.Ico p (p + k) ⊆ cover bs ∧
      ∃ bs', Rep lo hi s' bs' ∧ Sparse bs' ∧ cover bs' = cover bs \ Set.Ico p (p + k)

theorem allocated_of_take {m : ListManager} {s' : FreeArea} (hs : Sparse (us ++ b :: vs))
    (hk : k ≤ b.2) (hfit : m.Fit (cover (us ++ b :: vs)) k b.1)
    (hrep : Rep lo hi s' (us ++ rest b k ++ vs)) :
    Allocated m lo hi k s (us ++ b :: vs) (some b.1, s') := by
  refine ⟨hfit, fun i hi => ?_, _, hrep, hs.take, hs.cover_take hk⟩
  exact Ico_subset_cover (List.mem_append_right us List.mem_cons_self)
    ⟨hi.1, by have := hi.2; omega⟩

theorem Rep.lt_of_nrFree (h : Rep lo hi s bs) (hk : k > s.nrFree) : ∀ b ∈ bs, b.2 < k := by
  intro b hb
  obtain ⟨us, vs, rfl⟩ := List.append_of_mem hb
  have := h.nrFree
  rw [size_append, size_cons] at this
  omega

/-- **Allocation.** -/
theorem allocPages_spec (m : ListManager) (h : Rep lo hi s bs) (hs : Sparse bs) (hk : 0 < k) :
    ∃ r, m.pmm.allocPages k s = some r ∧ Allocated m lo hi k s bs r := by
  by_cases hn : k > s.nrFree
  · refine ⟨(none, s), ?_, rfl, h.lt_of_nrFree hn⟩
    cases m
    · exact (if_pos hk).trans (if_pos hn)
    · exact (if_pos hk).trans (if_pos hn)
    · exact (if_pos hk).trans (if_pos hn)
  have hbest := isBest_foldl k bs
  cases m with
  | default =>
    have heq : defaultAllocPages k s = _ := (if_pos hk).trans (if_neg hn)
    change ∃ r, defaultAllocPages k s = some r ∧ _
    rw [heq, firstFit_spec h hs]
    cases hf : bs.find? fun b => k ≤ b.2 with
    | none =>
      refine ⟨_, rfl, rfl, fun b hb => ?_⟩
      simpa using List.find?_eq_none.mp hf b hb
    | some b =>
      obtain ⟨hkb, us, vs, rfl, hu⟩ := List.find?_eq_some_iff_append.mp hf
      simp only [decide_eq_true_eq] at hkb
      refine ⟨_, rfl, allocated_of_take hs hkb (hs.firstFit hkb fun a ha => ?_)
        (takeFrom_spec h hs hk hkb)⟩
      simpa using hu a ha
  | bestFit =>
    have heq : bestFitAllocPages k s = _ := (if_pos hk).trans (if_neg hn)
    change ∃ r, bestFitAllocPages k s = some r ∧ _
    obtain ⟨minSize, hfit⟩ := bestFit_spec (k := k) h hs
    rw [heq, hfit]
    cases hb : best k bs with
    | none =>
      rw [show bs.foldl (better k) none = none from hb] at hbest
      exact ⟨_, rfl, rfl, hbest⟩
    | some b =>
      rw [show bs.foldl (better k) none = some b from hb] at hbest
      obtain ⟨us, vs, rfl, hkb, hu, hv⟩ := hbest
      exact ⟨_, rfl, allocated_of_take hs hkb (hs.bestFit hkb hu hv) (takeFrom_spec h hs hk hkb)⟩
  | slub =>
    have heq : slubPageAlloc k s = _ := (if_pos hk).trans (if_neg hn)
    change ∃ r, slubPageAlloc k s = some r ∧ _
    rw [heq, slubBest_spec h hs]
    cases hb : best k bs with
    | none =>
      rw [show bs.foldl (better k) none = none from hb] at hbest
      exact ⟨_, rfl, rfl, hbest⟩
    | some b =>
      rw [show bs.foldl (better k) none = some b from hb] at hbest
      obtain ⟨us, vs, rfl, hkb, hu, hv⟩ := hbest
      obtain ⟨s₁, s₂, h₁, h₂, hrep⟩ := slubTake_spec h hs hkb
      refine ⟨(some b.1, { s₂ with nrFree := s₂.nrFree - k }), ?_,
        allocated_of_take hs hkb (hs.bestFit hkb hu hv) hrep⟩
      simp only [Option.bind_eq_bind, Option.bind_some, Option.map_some, Option.elim_some, h₁, h₂]

end Ucore.FreeList
