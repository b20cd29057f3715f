import Ucore.FreeList.Model
import Ucore.Lib.Extent

/-!
# What the list-based allocators do

`Rep lo hi s bs` says that the free list of `s` holds the extents `bs` of the managed pages
`[lo, hi)`: the list visits their heads in order, `property` holds their sizes, `PG_property` marks
the heads and `nr_free` counts the pages.  Each function of `Ucore.FreeList.Model` is described by
its effect on the extents; on a `Sparse` list

* **`allocPages_spec`**: a search returns `NULL` and changes nothing when no extent is large enough,
  else it takes the first pages of the extent of the fit;
* **`freePages_spec`**: a free adds its pages to the cover and leaves the list sparse, for the
  first-fit and best-fit managers as long as it does not insert at the end of a nonempty list.
-/

namespace Ucore.FreeList

open LinkedRing Extent

variable {lo hi k m base : ℕ} {s : FreeArea} {bs us vs : List (ℕ × ℕ)} {b c : ℕ × ℕ}

/-- The head pages of the extents. -/
abbrev heads (bs : List (ℕ × ℕ)) : List ℕ := bs.map Prod.fst

/-- The number of pages of the extents. -/
abbrev size (bs : List (ℕ × ℕ)) : ℕ := (bs.map Prod.snd).sum

/-- The free list of `s` holds the extents `bs`, all inside `[lo, hi)`. -/
structure Rep (lo hi : ℕ) (s : FreeArea) (bs : List (ℕ × ℕ)) : Prop where
  list : IsList s.freeList (heads bs)
  property : ∀ b ∈ bs, (s.page b.1).property = b.2
  bit : ∀ i, lo ≤ i → i < hi → ((s.page i).propertyBit = true ↔ i ∈ heads bs)
  reserved : ∀ i, lo ≤ i → i < hi → (s.page i).reserved = false
  inside : ∀ b ∈ bs, lo ≤ b.1 ∧ b.1 + b.2 ≤ hi
  nrFree : s.nrFree = size bs
  fits : s.nrFree + 1 < 2 ^ 32
  npage : hi ≤ s.npage

theorem u32_of_lt {x : ℕ} (h : x < 2 ^ 32) : u32 x = x := Nat.mod_eq_of_lt h

@[simp] theorem modifyPage_page (s : FreeArea) (p : ℕ) (f : Page → Page) :
    (s.modifyPage p f).page = Function.update s.page p (f (s.page p)) := rfl

@[simp] theorem modifyPage_freeList (s : FreeArea) (p : ℕ) (f : Page → Page) :
    (s.modifyPage p f).freeList = s.freeList := rfl

@[simp] theorem modifyPage_nrFree (s : FreeArea) (p : ℕ) (f : Page → Page) :
    (s.modifyPage p f).nrFree = s.nrFree := rfl

@[simp] theorem modifyPage_npage (s : FreeArea) (p : ℕ) (f : Page → Page) :
    (s.modifyPage p f).npage = s.npage := rfl

theorem Rep.head_ne (h : Rep lo hi s (us ++ b :: vs)) :
    (∀ a ∈ us, a.1 ≠ b.1) ∧ ∀ a ∈ vs, a.1 ≠ b.1 := by
  have hnd := h.list.nodup
  rw [heads, List.map_append, List.map_cons, List.nodup_middle, List.nodup_cons,
    List.mem_append] at hnd
  exact ⟨fun a ha he => hnd.1 (Or.inl (he ▸ List.mem_map_of_mem ha)),
    fun a ha he => hnd.1 (Or.inr (he ▸ List.mem_map_of_mem ha))⟩

theorem size_append : size (us ++ vs) = size us + size vs := by
  rw [size, List.map_append, List.sum_append]

theorem size_cons : size (b :: bs) = b.2 + size bs := by
  rw [size, List.map_cons, List.sum_cons]

/-- Sorted extents inside `[lo, hi)` have at most `hi - lo` elements. -/
theorem size_le_of_sparse : ∀ {bs : List (ℕ × ℕ)} {lo : ℕ}, Sparse bs →
    (∀ b ∈ bs, lo ≤ b.1 ∧ b.1 + b.2 ≤ hi) → size bs ≤ hi - lo
  | [], _, _, _ => Nat.zero_le _
  | b :: bs, lo, hs, hin => by
    obtain ⟨-, hs', hgap⟩ := sparse_cons.mp hs
    have ih : size bs ≤ hi - (b.1 + b.2) := size_le_of_sparse hs' fun a ha =>
      ⟨(hgap a ha).le, (hin a (List.mem_cons_of_mem b ha)).2⟩
    have := hin b List.mem_cons_self
    rw [size_cons]
    omega

theorem length_le_size : ∀ {bs : List (ℕ × ℕ)}, Sparse bs → bs.length ≤ size bs
  | [], _ => le_rfl
  | b :: bs, hs => by
    obtain ⟨hb, hs', -⟩ := sparse_cons.mp hs
    have ih := length_le_size hs'
    rw [size_cons, List.length_cons]
    omega

theorem Rep.length_le (h : Rep lo hi s bs) (hs : Sparse bs) : (heads bs).length ≤ s.npage := by
  have h₁ := length_le_size hs
  have h₂ := size_le_of_sparse hs h.inside
  have h₃ := h.npage
  rw [List.length_map]
  omega

/-! ### Merging -/

/-- Two extents that touch become one. -/
theorem Rep.absorb (h : Rep lo hi s (us ++ c :: b :: vs)) (hcb : c.1 + c.2 = b.1) :
    Rep lo hi (absorb c.1 b.1 s) (us ++ (c.1, c.2 + b.2) :: vs) := by
  have hbus : us ++ c :: b :: vs = (us ++ [c]) ++ b :: vs := by simp
  obtain ⟨hcu, hcv⟩ := h.head_ne
  obtain ⟨hbu, hbv⟩ := (hbus ▸ h : Rep lo hi s ((us ++ [c]) ++ b :: vs)).head_ne
  have hne : c.1 ≠ b.1 := hbu c (by simp)
  have hc := h.property c (by simp)
  have hb := h.property b (by simp)
  have hcin := h.inside c (by simp)
  have hbin := h.inside b (by simp)
  have hnr := h.nrFree
  rw [size_append, size_cons, size_cons] at hnr
  have hsum : u32 (c.2 + b.2) = c.2 + b.2 := u32_of_lt (by have := h.fits; omega)
  have hpage : ∀ i, (FreeList.absorb c.1 b.1 s).page i =
      if i = b.1 then (s.page b.1).clearPageProperty
      else if i = c.1 then (s.page c.1).setProperty (c.2 + b.2) else s.page i := by
    intro i
    simp only [FreeList.absorb, modifyPage_page, Function.update_apply, hne.symm, if_false, hc, hb,
      hsum]
  refine ⟨?_, ?_, ?_, ?_, ?_, ?_, h.fits, h.npage⟩
  · have hl := h.list
    rw [hbus, heads, List.map_append, List.map_cons] at hl
    have hdel : IsList (FreeList.absorb c.1 b.1 s).freeList _ := hl.del
    simpa only [heads, List.map_append, List.map_cons, List.map_nil, List.append_assoc,
      List.singleton_append] using hdel
  · intro a ha
    rw [hpage]
    rcases List.mem_append.mp ha with ha | ha
    · rw [if_neg (hbu a (List.mem_append_left _ ha)), if_neg (hcu a ha)]
      exact h.property a (List.mem_append_left _ ha)
    · rcases List.mem_cons.mp ha with rfl | ha
      · rw [if_neg hne, if_pos rfl]
        rfl
      · rw [if_neg (hbv a ha), if_neg (hcv a (List.mem_cons_of_mem b ha))]
        exact h.property a (by simp [ha])
  · intro i hlo hhi
    have hbit := h.bit i hlo hhi
    rw [hpage]
    simp only [heads, List.map_append, List.map_cons, List.mem_append, List.mem_cons] at hbit ⊢
    by_cases hib : i = b.1
    · rw [if_pos hib, Page.clearPageProperty]
      have h₁ : i ∉ us.map Prod.fst := fun hi' => by
        obtain ⟨a, ha, rfl⟩ := List.mem_map.mp hi'
        exact hbu a (List.mem_append_left _ ha) hib
      have h₂ : i ∉ vs.map Prod.fst := fun hi' => by
        obtain ⟨a, ha, rfl⟩ := List.mem_map.mp hi'
        exact hbv a ha hib
      have h₃ : i ≠ c.1 := fun hic => hne (hic.symm.trans hib)
      simp [h₁, h₂, h₃]
    · rw [if_neg hib]
      simp only [hib, false_or] at hbit
      by_cases hic : i = c.1
      · rw [if_pos hic, ← hic]
        rw [← hic] at hbit
        exact hbit
      · rw [if_neg hic]
        exact hbit
  · intro i hlo hhi
    have := h.reserved i hlo hhi
    rw [hpage]
    split
    · next hib => rw [← hib]; exact this
    · split
      · next hic => rw [← hic]; exact this
      · exact this
  · intro a ha
    rcases List.mem_append.mp ha with ha | ha
    · exact h.inside a (List.mem_append_left _ ha)
    · rcases List.mem_cons.mp ha with rfl | ha
      · exact ⟨hcin.1, by simp only; omega⟩
      · exact h.inside a (by simp [ha])
  · change s.nrFree = _
    rw [hnr, size_append, size_cons]
    omega

theorem mergePrev_spec (h : Rep lo hi s (us ++ b :: vs)) :
    (mergePrev b.1 s).1 = (joinPrev us b).2.1 ∧
      Rep lo hi (mergePrev b.1 s).2 ((joinPrev us b).1 ++ (joinPrev us b).2 :: vs) := by
  have hprev : listPrev s.freeList (some b.1) = lastEntry (heads us) := by
    have hl := h.list
    rw [heads, List.map_append, List.map_cons] at hl
    exact hl.prev_some
  rw [mergePrev, hprev]
  rcases List.eq_nil_or_concat us with rfl | ⟨us, c, rfl⟩
  · exact ⟨rfl, h⟩
  rw [List.concat_eq_append] at h ⊢
  have hlast : lastEntry (heads (us ++ [c])) = some c.1 := by simp [lastEntry]
  have hc := h.property c (by simp)
  have hjoin : joinPrev (us ++ [c]) b =
      if c.1 + c.2 = b.1 then (us, (c.1, c.2 + b.2)) else (us ++ [c], b) := by
    simp only [joinPrev, List.getLast?_append, List.getLast?_singleton, Option.some_or,
      List.dropLast_concat]
  simp only [hlast, hc, hjoin]
  by_cases hcb : c.1 + c.2 = b.1
  · simp only [if_pos hcb]
    rw [List.append_assoc, List.singleton_append] at h
    exact ⟨trivial, h.absorb hcb⟩
  · simp only [if_neg hcb]
    exact ⟨trivial, h⟩

theorem mergeNext_spec (h : Rep lo hi s (us ++ b :: vs)) :
    Rep lo hi (mergeNext b.1 s) (us ++ (joinNext b vs).1 :: (joinNext b vs).2) := by
  have hnext : listNext s.freeList (some b.1) = firstEntry (heads vs) := by
    have hl := h.list
    rw [heads, List.map_append, List.map_cons] at hl
    exact hl.next_some
  rw [mergeNext, hnext]
  cases vs with
  | nil => exact h
  | cons c vs =>
    have hb := h.property b (by simp)
    simp only [firstEntry, heads, List.map_cons, List.head?_cons, hb, joinNext]
    by_cases hbc : b.1 + b.2 = c.1
    · simp only [if_pos hbc]
      exact h.absorb hbc
    · simp only [if_neg hbc]
      exact h

/-- `page_try_merge` joins the block with both neighbours. -/
theorem pageTryMerge_spec (h : Rep lo hi s (us ++ b :: vs)) :
    Rep lo hi (pageTryMerge b.1 s) (release us b vs) := by
  obtain ⟨h₁, h₂⟩ := mergePrev_spec h
  rw [pageTryMerge, release]
  simp only [h₁]
  exact mergeNext_spec h₂

/-! ### Insertion -/

variable {es₁ es₂ : List ℕ} {L : Links (Option ℕ)}

theorem insertLoop_spec {v : ℕ} (hv : base < v) : ∀ {es es₁ es₂ : List ℕ} {k : ℕ},
    IsList L (es₁ ++ (es ++ v :: es₂)) → (∀ a ∈ es, a < base) → es.length < k →
      insertLoop base k (lastEntry es₁) L = some (listAddBefore (some v) (some base) L)
  | _, _, _, 0, _, _, hk => absurd hk (Nat.not_lt_zero _)
  | [], es₁, es₂, k + 1, h, _, _ => by
    rw [insertLoop, h.neighbours.1]
    simp only [List.nil_append, firstEntry, List.head?_cons, if_pos hv]
  | a :: es, es₁, es₂, k + 1, h, hes, hk => by
    have ha := hes a List.mem_cons_self
    rw [insertLoop, h.neighbours.1]
    have hnext : listNext L (some a) ≠ none := by
      rw [IsList.next_some (show IsList L (es₁ ++ a :: (es ++ v :: es₂)) from h)]
      cases es <;> simp [firstEntry]
    simp only [List.cons_append, firstEntry, List.head?_cons, if_neg (Nat.lt_asymm ha),
      if_neg hnext]
    rw [List.cons_append, ← List.singleton_append, ← List.append_assoc] at h
    have ih := insertLoop_spec hv h (fun a ha => hes a (List.mem_cons_of_mem _ ha))
      (Nat.lt_of_succ_lt_succ hk)
    rwa [lastEntry, List.getLast?_append, List.getLast?_singleton, Option.some_or] at ih

/-- An insertion procedure puts `base` between smaller and larger entries. -/
def Inserts (insert : ℕ → FreeArea → Option FreeArea) (base : ℕ) (es₁ es₂ : List ℕ) : Prop :=
  ∀ s : FreeArea, IsList s.freeList (es₁ ++ es₂) → (es₁ ++ es₂).length ≤ s.npage →
    ∃ L, insert base s = some { s with freeList := L } ∧ IsList L (es₁ ++ base :: es₂)

theorem not_mem_of_lt (h₁ : ∀ a ∈ es₁, a < base) (h₂ : ∀ a ∈ es₂, base < a) :
    base ∉ es₁ ++ es₂ := by
  intro h
  rcases List.mem_append.mp h with h | h
  · exact lt_irrefl _ (h₁ _ h)
  · exact lt_irrefl _ (h₂ _ h)

/-- The loop of the first-fit and best-fit managers inserts anywhere but at the end of a nonempty
list. -/
theorem insertBlock_inserts (h₁ : ∀ a ∈ es₁, a < base) (h₂ : ∀ a ∈ es₂, base < a)
    (hend : es₁ = [] ∨ es₂ ≠ []) : Inserts insertBlock base es₁ es₂ := by
  intro s hl hlen
  have hnot := not_mem_of_lt h₁ h₂
  unfold insertBlock
  cases es₂ with
  | nil =>
    obtain rfl : es₁ = [] := hend.resolve_right fun h => h rfl
    rw [if_pos (hl.listEmpty_iff.mpr rfl)]
    exact ⟨_, rfl, IsList.add (show IsList s.freeList ([] ++ []) from hl) hnot⟩
  | cons v es₂ =>
    rw [if_neg (fun he => by simpa using hl.listEmpty_iff.mp he)]
    rw [List.length_append] at hlen
    have hloop := insertLoop_spec (k := s.npage + 2) (h₂ v List.mem_cons_self)
      (show IsList s.freeList ([] ++ (es₁ ++ v :: es₂)) from hl) h₁ (by omega)
    rw [show (none : Option ℕ) = lastEntry [] from rfl, hloop]
    exact ⟨_, rfl, IsList.addBefore (show IsList s.freeList (es₁ ++ v :: es₂) from hl) hnot⟩

/-- `list_init` and `page_insert_block` insert anywhere. -/
theorem slubInsert_inserts (h₁ : ∀ a ∈ es₁, a < base) (h₂ : ∀ a ∈ es₂, base < a) :
    Inserts slubInsert base es₁ es₂ := by
  intro s hl hlen
  have hnot := not_mem_of_lt h₁ h₂
  have hl' := hl.init hnot
  have hfind : (es₁ ++ es₂).find? (fun e => base < e) = firstEntry es₂ := by
    rw [List.find?_append, List.find?_eq_none.mpr fun a ha => by
      have := h₁ a ha
      simp only [decide_eq_true_eq]
      omega, Option.none_or]
    cases es₂ with
    | nil => rfl
    | cons v es₂ => simp [firstEntry, h₂ v List.mem_cons_self]
  have hwalk := hl'.whileNext (fun le p => if base < p then (some p, true) else (le, false))
    (k := s.npage + 1) (by omega) none
  have hbody := whileList_find (fun p => base < p) (es₁ ++ es₂)
  simp only [decide_eq_true_eq] at hbody
  rw [slubInsert, pageInsertBlock]
  simp only [hwalk, hbody, hfind]
  exact ⟨_, rfl, hl'.addBefore hnot⟩

/-! ### Adding a range -/

theorem eachPage_spec {check : Page → Bool} {f : Page → Page} :
    ∀ {n p : ℕ} {s : FreeArea}, (∀ i, p ≤ i → i < p + n → check (s.page i) = true) →
      eachPage check f n p s = some { s with
        page := fun i => if p ≤ i ∧ i < p + n then f (s.page i) else s.page i }
  | 0, p, s, _ => by
    have : ∀ i, ¬ (p ≤ i ∧ i < p + 0) := fun i => by omega
    simp only [eachPage, this, if_false]
  | n + 1, p, s, hc => by
    rw [eachPage, if_pos (hc p le_rfl (by omega)), eachPage_spec fun i hlo hhi => by
      rw [modifyPage_page, Function.update_of_ne (by omega)]
      exact hc i (by omega) (by omega)]
    congr 2
    funext i
    simp only [modifyPage_page, Function.update_apply]
    by_cases hip : i = p
    · subst hip
      rw [if_neg (by omega), if_pos rfl, if_pos (by omega)]
    · simp only [if_neg hip]
      exact if_congr (by omega) rfl rfl

/-- The descriptor of page `i` after `[base, base + m)` is reset and `base` made a head. -/
def addedPage (reset : Page → Page) (base m : ℕ) (page : ℕ → Page) (i : ℕ) : Page :=
  if i = base then ((reset (page i)).setProperty (u32 m)).setPageProperty
  else if base ≤ i ∧ i < base + m then reset (page i) else page i

theorem addRange_eq {check : Page → Bool} (reset : Page → Page)
    {insert : ℕ → FreeArea → Option FreeArea} (hm : 0 < m)
    (hlist : IsList s.freeList (es₁ ++ es₂)) (hlen : (es₁ ++ es₂).length ≤ s.npage)
    (hcheck : ∀ i, base ≤ i → i < base + m → check (s.page i) = true)
    (hinsert : Inserts insert base es₁ es₂) :
    ∃ L, IsList L (es₁ ++ base :: es₂) ∧ addRange check reset insert base m s =
      some ⟨L, u32 (s.nrFree + m), addedPage reset base m s.page, s.npage⟩ := by
  obtain ⟨L, hins, hL⟩ := hinsert
    ⟨s.freeList, u32 (s.nrFree + m), addedPage reset base m s.page, s.npage⟩ hlist hlen
  refine ⟨L, hL, ?_⟩
  have hpage : (setHead base m { s with
      page := fun i => if base ≤ i ∧ i < base + m then reset (s.page i) else s.page i }).page =
      addedPage reset base m s.page := by
    funext i
    simp only [setHead, modifyPage_page, Function.update_apply, addedPage]
    by_cases hib : i = base
    · rw [if_pos hib, if_pos hib, hib, if_pos (by omega)]
    · rw [if_neg hib, if_neg hib]
  rw [addRange, if_pos hm, eachPage_spec hcheck, ← hins, ← hpage]
  rfl

/-- The common part of `init_memmap` and `free_pages`: `[base, base + m)` becomes one extent more.
Nothing is assumed about the old flags of these pages but that the check passes. -/
theorem addRange_spec {check : Page → Bool} {reset : Page → Page}
    {insert : ℕ → FreeArea → Option FreeArea} (hb : Between us (base, m) vs)
    (hlist : IsList s.freeList (heads us ++ heads vs))
    (hlen : (heads us ++ heads vs).length ≤ s.npage)
    (hcheck : ∀ i, base ≤ i → i < base + m → check (s.page i) = true)
    (hreset : ∀ pg, (reset pg).reserved = false ∧ (reset pg).propertyBit = false)
    (hinsert : Inserts insert base (heads us) (heads vs))
    (hprop : ∀ b ∈ us ++ vs, 0 < b.2 ∧ (s.page b.1).property = b.2)
    (hout : ∀ i, lo ≤ i → i < hi → ¬ (base ≤ i ∧ i < base + m) →
      (s.page i).reserved = false ∧
        ((s.page i).propertyBit = true ↔ i ∈ heads us ∨ i ∈ heads vs))
    (hinside : ∀ b ∈ us ++ (base, m) :: vs, lo ≤ b.1 ∧ b.1 + b.2 ≤ hi)
    (hnr : s.nrFree = size us + size vs) (hfits : s.nrFree + m + 1 < 2 ^ 32)
    (hnp : hi ≤ s.npage) :
    ∃ s', addRange check reset insert base m s = some s' ∧
      Rep lo hi s' (us ++ (base, m) :: vs) := by
  have hm : 0 < m := hb.pos
  obtain ⟨L, hL, hadd⟩ := addRange_eq reset hm hlist hlen hcheck hinsert
  have hmem : ∀ a ∈ us ++ vs, ¬ (base ≤ a.1 ∧ a.1 < base + m) := by
    intro a ha hin
    have hpos := (hprop a ha).1
    rcases List.mem_append.mp ha with ha | ha
    · have := hb.left a ha
      simp only at this
      omega
    · have := hb.right a ha
      simp only at this
      omega
  have hcases : ∀ a ∈ us ++ (base, m) :: vs, a = (base, m) ∨ a ∈ us ++ vs := by
    intro a ha
    rcases List.mem_append.mp ha with ha | ha
    · exact Or.inr (List.mem_append_left _ ha)
    · rcases List.mem_cons.mp ha with rfl | ha
      · exact Or.inl rfl
      · exact Or.inr (List.mem_append_right _ ha)
  have hnot : ∀ i, base ≤ i ∧ i < base + m → i ∉ heads us ∧ i ∉ heads vs := by
    refine fun i hin => ⟨fun hi' => ?_, fun hi' => ?_⟩ <;>
      obtain ⟨a, ha, rfl⟩ := List.mem_map.mp hi'
    · exact hmem a (List.mem_append_left _ ha) hin
    · exact hmem a (List.mem_append_right _ ha) hin
  have hu32 : u32 (s.nrFree + m) = s.nrFree + m := u32_of_lt (by omega)
  refine ⟨_, hadd, ?_, fun a ha => ?_, fun i hlo hhi => ?_, fun i hlo hhi => ?_, hinside, ?_, ?_,
    hnp⟩
  · rw [heads, List.map_append, List.map_cons]
    exact hL
  · simp only [addedPage]
    rcases hcases a ha with rfl | ha
    · rw [if_pos rfl]
      exact u32_of_lt (by omega)
    · have hne : a.1 ≠ base := fun h => hmem a ha (by omega)
      rw [if_neg hne, if_neg (hmem a ha)]
      exact (hprop a ha).2
  · simp only [addedPage, heads, List.map_append, List.map_cons, List.mem_append, List.mem_cons]
    by_cases hib : i = base
    · simp [hib, Page.setPageProperty]
    · rw [if_neg hib]
      by_cases hin : base ≤ i ∧ i < base + m
      · rw [if_pos hin, (hreset (s.page i)).2]
        simp [hib, (hnot i hin).1, (hnot i hin).2]
      · rw [if_neg hin, (hout i hlo hhi hin).2]
        simp [hib]
  · simp only [addedPage]
    by_cases hib : i = base
    · rw [if_pos hib]
      exact (hreset _).1
    · rw [if_neg hib]
      by_cases hin : base ≤ i ∧ i < base + m
      · rw [if_pos hin]
        exact (hreset _).1
      · rw [if_neg hin]
        exact (hout i hlo hhi hin).1
  · rw [size_append, size_cons]
    simp only [hu32]
    omega
  · simp only [hu32]
    exact hfits

end Ucore.FreeList
