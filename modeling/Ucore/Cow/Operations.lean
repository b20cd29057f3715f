import Ucore.Cow.Sharing

/-!
# What the operations on page tables do

One theorem for each function of `pmm.c` and `vmm.c`: which entry changes, what the pages read
afterwards, and that `Sharing` is kept.  `doPgfault_cases` lists the ways in which `do_pgfault` ends;
everything said about page faults later goes through it.
-/

namespace Ucore.Cow

open RefCount

variable {s s' : State} {pool held : Set ℕ} {a p f page : ℕ} {x y : ℕ × ℕ} {fl perm : Perm}

/-! ### Tables -/

/-- Only new tables, with entries that are zero. -/
structure GrowsTables (s s' : State) : Prop where
  ref : s'.ref = s.ref
  data : s'.data = s.data
  free : s'.free = s.free
  pte : ∀ b q, s'.pte b q = s.pte b q
  hasTable : ∀ b r, (s.mm b).hasTable r = true → (s'.mm b).hasTable r = true
  mmapList : ∀ b, (s'.mm b).mmapList = (s.mm b).mmapList

theorem GrowsTables.refl (s : State) : GrowsTables s s :=
  ⟨rfl, rfl, rfl, fun _ _ => rfl, fun _ _ h => h, fun _ => rfl⟩

theorem GrowsTables.mapping_eq (hg : GrowsTables s s') : mapping s' = mapping s := by
  funext x
  rw [mapping, mapping, hg.pte]

theorem GrowsTables.view_eq (hg : GrowsTables s s') : view s' = view s := by
  rw [view, view, hg.mapping_eq, hg.data]

theorem GrowsTables.sharing (hg : GrowsTables s s') (h : Sharing pool held s) :
    Sharing pool held s' := by
  refine ⟨?_, ?_, ?_, ?_, ?_, fun b q ht => ?_⟩
  · rw [hg.mapping_eq, hg.ref]
    exact h.counts
  · rw [hg.free, hg.ref]
    exact h.free
  · rw [hg.free, hg.ref]
    exact h.used
  · rw [hg.mapping_eq]
    exact h.inPool
  · rw [hg.mapping_eq, hg.ref]
    intro y g hy hyw
    rw [hg.pte] at hyw
    exact h.write y g hy hyw
  · rw [hg.pte]
    refine h.table b q (Bool.eq_false_of_not_eq_true fun htrue => ?_)
    exact absurd ((hg.hasTable b _ htrue).symm.trans ht) (by decide)

/-- `get_pte`: the table is there afterwards. -/
theorem getPte_spec {create answer : Bool} (hget : getPte create answer a p s = some s') :
    GrowsTables s s' ∧ (s'.mm a).hasTable (p / NPTEENTRY) = true := by
  rw [getPte] at hget
  split at hget
  · rename_i ht
    obtain rfl := Option.some.inj hget
    exact ⟨GrowsTables.refl s, ht⟩
  · split at hget
    · obtain rfl := Option.some.inj hget
      refine ⟨⟨rfl, rfl, rfl, fun b q => ?_, fun b r hr => ?_, fun b => ?_⟩, ?_⟩
      · by_cases hb : b = a
        · subst hb
          simp only [State.pte, Function.update_self]
        · simp only [State.pte, Function.update_of_ne hb]
      · by_cases hb : b = a
        · subst hb
          simp only [Function.update_self]
          by_cases hr' : r = p / NPTEENTRY
          · rw [hr', Function.update_self]
          · rw [Function.update_of_ne hr']
            exact hr
        · simp only [Function.update_of_ne hb]
          exact hr
      · by_cases hb : b = a
        · subst hb
          simp only [Function.update_self]
        · simp only [Function.update_of_ne hb]
      · simp only [Function.update_self]
    · cases hget

theorem getPte_eq_self {create answer : Bool} (ht : (s.mm a).hasTable (p / NPTEENTRY) = true) :
    getPte create answer a p s = some s := if_pos ht

/-- Without `create` nothing changes, and `NULL` means that the region holds no entry. -/
theorem getPte_false (answer : Bool) :
    getPte false answer a p s = some s ∨ getPte false answer a p s = none ∧
      (s.mm a).hasTable (p / NPTEENTRY) = false := by
  rw [getPte]
  by_cases ht : (s.mm a).hasTable (p / NPTEENTRY) = true
  · exact Or.inl (if_pos ht)
  · refine Or.inr ⟨?_, Bool.eq_false_of_not_eq_true ht⟩
    rw [if_neg ht]
    rfl

/-! ### `page_insert` -/

/-- Page `p` of `a` is mapped to `page`; frames and all other entries keep their contents. -/
structure Inserts (s s' : State) (a p page : ℕ) (perm : Perm) : Prop where
  mapping : mapping s' = Function.update (Cow.mapping s) (a, p) (some page)
  data : s'.data = s.data
  pte : s'.pte a p = pteCreate page (PTE_V ||| perm)
  others : ∀ b q, (b, q) ≠ (a, p) → s'.pte b q = s.pte b q
  mmapList : ∀ b, (s'.mm b).mmapList = (s.mm b).mmapList

theorem has_V_pteCreate (page : ℕ) (perm : Perm) :
    has (pteCreate page (PTE_V ||| perm)).flags PTE_V = true := by
  rw [has_V]
  simp [pteCreate, PTE_V]

theorem has_W_pteCreate (page : ℕ) (perm : Perm) :
    has (pteCreate page (PTE_V ||| perm)).flags PTE_W = has perm PTE_W := by
  rw [has_W, has_W]
  simp [pteCreate, PTE_V]

theorem GrowsTables.inserts {s₁ : State} (hg : GrowsTables s s₁)
    (hi : Inserts s₁ s' a p page perm) : Inserts s s' a p page perm := by
  refine ⟨?_, hi.data.trans hg.data, hi.pte, fun b q hbq => ?_, fun b => ?_⟩
  · rw [hi.mapping, hg.mapping_eq]
  · rw [hi.others b q hbq, hg.pte]
  · rw [hi.mmapList, hg.mmapList]

theorem Inserts.view_eq (hi : Inserts s s' a p page perm) :
    view s' = Function.update (view s) (a, p) (some (s.data page)) := by
  rw [view, hi.mapping, hi.data, Function.comp_update]
  rfl

/-- The counter of the new page goes up before that of the old one goes down; the order does not
matter, they are two frames. -/
theorem pageRemovePte_refInc (hv : has (s.pte a p).flags PTE_V = true)
    (hne : (s.pte a p).ppn ≠ page) :
    pageRemovePte a p (pageRefInc page s) = pageRefInc page (pageRemovePte a p s) := by
  have hpte : (pageRefInc page s).pte a p = s.pte a p := rfl
  have hdec : ∀ t : State, (pageRefDec (s.pte a p).ppn t).ref (s.pte a p).ppn =
      t.ref (s.pte a p).ppn - 1 := fun t => Function.update_self _ _ _
  have hinc : (pageRefInc page (pageRefDec (s.pte a p).ppn s)).ref (s.pte a p).ppn =
      s.ref (s.pte a p).ppn - 1 := (Function.update_of_ne hne _ _).trans (hdec s)
  have hcomm : pageRefDec (s.pte a p).ppn (pageRefInc page s) =
      pageRefInc page (pageRefDec (s.pte a p).ppn s) := by
    simp only [pageRefDec, pageRefInc, Function.update_of_ne hne, Function.update_of_ne hne.symm]
    rw [Function.update_comm hne]
  simp only [pageRemovePte, hpte, hv, if_true, hcomm, hinc, hdec s]
  by_cases h0 : s.ref (s.pte a p).ppn - 1 = 0
  · simp only [if_pos h0]
    rfl
  · simp only [if_neg h0]
    rfl

/-- **`page_insert`** of a page that is new or shared read-only. -/
theorem pageInsert_spec (answer : Bool) (h : Sharing pool held s) (hpool : page ∈ pool)
    (hfree : s.free page = false) (hw : has perm PTE_W = true → s.ref page = 0)
    (hro : ∀ y, mapping s y = some page → has (s.pte y.1 y.2).flags PTE_W = false) :
    pageInsert answer a page p perm s = (-E_NO_MEM, s) ∧
        (s.mm a).hasTable (p / NPTEENTRY) = false ∨
      ∃ s', pageInsert answer a page p perm s = (0, s') ∧ Sharing pool (held \ {page}) s' ∧
        Inserts s s' a p page perm := by
  cases hget : getPte true answer a p s with
  | none =>
    refine Or.inl ⟨by rw [pageInsert, hget], Bool.eq_false_of_not_eq_true fun ht => ?_⟩
    rw [getPte_eq_self ht] at hget
    exact nomatch hget
  | some s₁ =>
    right
    obtain ⟨hg, ht⟩ := getPte_spec hget
    have h₁ := hg.sharing h
    rw [← hg.free] at hfree
    rw [← hg.ref] at hw
    have hro₁ : ∀ y, mapping s₁ y = some page → has (s₁.pte y.1 y.2).flags PTE_W = false := by
      intro y hy
      rw [hg.mapping_eq] at hy
      rw [hg.pte]
      exact hro y hy
    have hvn := has_V_pteCreate page perm
    have hwn := has_W_pteCreate page perm
    cases hold : mapping s₁ (a, p) with
    | none =>
      have hv := mapping_eq_none.mp hold
      have heq : pageInsert answer a page p perm s = (0,
          (pageRefInc page s₁).setPte a p (pteCreate page (PTE_V ||| perm))) := by
        rw [pageInsert, hget]
        have hv' : has ((pageRefInc page s₁).pte a p).flags PTE_V = false := hv
        simp only [hv', Bool.false_eq_true, if_false]
      refine ⟨_, heq, h₁.map hold ht hpool hfree hvn (fun hc => hw (hwn ▸ hc)) hro₁, ?_⟩
      refine hg.inserts ⟨?_, rfl, pte_setPte_self _ _ _ _, fun b q hbq => pte_setPte_of_ne _ _ hbq,
        fun b => setPte_mmapList _ _ _ _ _⟩
      rw [mapping_setPte, if_pos hvn]
      rfl
    | some g =>
      obtain ⟨hv, hg'⟩ := mapping_eq_some.mp hold
      have hv' : has ((pageRefInc page s₁).pte a p).flags PTE_V = true := hv
      have hppn : ((pageRefInc page s₁).pte a p).ppn = g := hg'
      by_cases hgp : g = page
      · subst hgp
        -- the page is mapped here already, so the counter goes up and down again
        have hback : pageRefDec g (pageRefInc g s₁) = s₁ := by
          simp only [pageRefDec, pageRefInc, Function.update_self, Nat.add_sub_cancel,
            Function.update_idem, Function.update_eq_self]
        have heq : pageInsert answer a g p perm s =
            (0, s₁.setPte a p (pteCreate g (PTE_V ||| perm))) := by
          rw [pageInsert, hget]
          simp only [hv', if_true, hppn, hback]
        have hne : s₁.ref g ≠ 0 := Nat.ne_of_gt (h₁.counts.pos hold)
        obtain ⟨hsh, hmap⟩ := h₁.reflag (pteCreate g (PTE_V ||| perm)).flags hold hvn
          fun hc => absurd (hw (hwn ▸ hc)) hne
        refine ⟨_, heq, ⟨hsh.counts, hsh.free, fun k hk hkf hkh => ?_, hsh.inPool, hsh.write,
          hsh.table⟩, ?_⟩
        · by_cases hkg : k = g
          · rw [hkg]
            exact hne
          · exact hsh.used k hk hkf fun hmem => hkh ⟨hmem, hkg⟩
        · refine hg.inserts ⟨?_, rfl, pte_setPte_self _ _ _ _,
            fun b q hbq => pte_setPte_of_ne _ _ hbq, fun b => setPte_mmapList _ _ _ _ _⟩
          rw [mapping_setPte, if_pos hvn]
          rfl
      · have hr := pageRemovePte_spec hold
        have h₂ := h₁.remove hold hr
        have hne : (s₁.pte a p).ppn ≠ page := hg' ▸ hgp
        have heq : pageInsert answer a page p perm s = (0, (pageRefInc page
            (pageRemovePte a p s₁)).setPte a p (pteCreate page (PTE_V ||| perm))) := by
          rw [pageInsert, hget]
          simp only [hv', if_true, hppn, if_neg hgp]
          rw [pageRemovePte_refInc hv hne]
        have hnone : mapping (pageRemovePte a p s₁) (a, p) = none := by
          rw [hr.mapping, Function.update_self]
        have hfree₂ : (pageRemovePte a p s₁).free page = false := by
          rw [hr.free]
          split
          · rw [Function.update_of_ne fun he => hgp he.symm]
            exact hfree
          · exact hfree
        have href : (pageRemovePte a p s₁).ref page = s₁.ref page := by
          rw [hr.ref, Function.update_of_ne fun he => hgp he.symm]
        refine ⟨_, heq, h₂.map hnone ?_ hpool hfree₂ hvn (fun hc => ?_) (fun y hy => ?_), ?_⟩
        · rw [hr.hasTable]
          exact ht
        · rw [href]
          exact hw (hwn ▸ hc)
        · have hya : y ≠ (a, p) := by
            rintro rfl
            rw [hnone] at hy
            exact nomatch hy
          rw [hr.mapping, Function.update_of_ne hya] at hy
          rw [hr.others y.1 y.2 hya]
          exact hro₁ y hy
        · refine hg.inserts ⟨?_, hr.data, pte_setPte_self _ _ _ _, fun b q hbq => ?_, fun b => ?_⟩
          · rw [mapping_setPte, if_pos hvn]
            show Function.update (mapping (pageRemovePte a p s₁)) (a, p) (some page) = _
            rw [hr.mapping, Function.update_idem]
          · rw [pte_setPte_of_ne _ _ hbq]
            exact hr.others b q hbq
          · rw [setPte_mmapList]
            exact hr.mmapList b

/-! ### Frames -/

/-- `alloc_page`: the frame is new, nobody maps it. -/
theorem allocPage_spec {answer : Option ℕ} (h : Sharing pool ∅ s)
    (halloc : allocPage answer s = some (f, s')) :
    Sharing pool {f} s' ∧ f ∈ pool ∧ s'.free f = false ∧ s'.ref f = 0 ∧ mapping s' = mapping s ∧
      s'.data = s.data ∧ s'.mm = s.mm ∧ s.free f = true ∧
      s' = { s with free := Function.update s.free f false } := by
  cases answer with
  | none => exact nomatch halloc
  | some g =>
    rw [allocPage] at halloc
    split at halloc
    · rename_i hfree
      obtain ⟨rfl, rfl⟩ := Prod.mk.inj (Option.some.inj halloc)
      obtain ⟨hpool, href⟩ := h.free g hfree
      refine ⟨⟨h.counts, fun k hk => ?_, fun k hk hkf hkh => ?_, h.inPool, h.write, h.table⟩, hpool,
        Function.update_self _ _ _, href, rfl, rfl, rfl, hfree, rfl⟩
      · by_cases hkg : k = g
        · rw [hkg]
          exact ⟨hpool, href⟩
        · exact h.free k ((Function.update_of_ne hkg _ _).symm.trans hk)
      · have hkg : k ≠ g := hkh
        exact h.used k hk ((Function.update_of_ne hkg _ _).symm.trans hkf) (Set.notMem_empty k)
    · exact nomatch halloc

/-- Contents of a frame that nobody maps. -/
theorem view_setData_of_unmapped {d : Bytes} (hf : ∀ y, mapping s y ≠ some f) :
    view (s.setData f d) = view s := by
  funext y
  show (mapping s y).map (Function.update s.data f d) = (mapping s y).map s.data
  cases hy : mapping s y with
  | none => rfl
  | some g =>
    have hg : g ≠ f := fun he => hf y (he ▸ hy)
    show some (Function.update s.data f d g) = some (s.data g)
    rw [Function.update_of_ne hg]

/-- Contents of a frame with one page. -/
theorem view_setData_of_alone {d : Bytes} (hx : mapping s x = some f)
    (halone : ∀ y, mapping s y = some f → y = x) :
    view (s.setData f d) = Function.update (view s) x (some d) := by
  funext y
  show (mapping s y).map (Function.update s.data f d) = _
  by_cases hyx : y = x
  · subst hyx
    rw [hx, Function.update_self]
    show some (Function.update s.data f d f) = some d
    rw [Function.update_self]
  · rw [Function.update_of_ne hyx]
    show _ = (mapping s y).map s.data
    cases hy : mapping s y with
    | none => rfl
    | some g =>
      have hg : g ≠ f := fun he => hyx (halone y (he ▸ hy))
      show some (Function.update s.data f d g) = some (s.data g)
      rw [Function.update_of_ne hg]

theorem Sharing.setData (h : Sharing pool held s) (f : ℕ) (d : Bytes) :
    Sharing pool held (s.setData f d) :=
  ⟨h.counts, h.free, h.used, h.inPool, h.write, h.table⟩

/-! ### Regions -/

/-- The pages up to the next region share one table. -/
theorem region_eq {start q : ℕ} (h₁ : start ≤ q) (h₂ : q < nextRegion start) :
    q / NPTEENTRY = start / NPTEENTRY := by
  simp only [nextRegion, NPTEENTRY] at *
  omega

theorem lt_nextRegion (start : ℕ) : start < nextRegion start := by
  simp only [nextRegion, NPTEENTRY]
  omega

theorem Sharing.view_eq_none (h : Sharing pool held s) {q : ℕ}
    (ht : (s.mm a).hasTable (q / NPTEENTRY) = false) : view s (a, q) = none := by
  show (mapping s (a, q)).map s.data = none
  rw [mapping_eq_none.mpr (by rw [h.table a q ht]; decide)]
  rfl

/-! ### `copy_range` -/

/-- No entry becomes writable, no segment changes. -/
structure KeepsReadOnly (s s' : State) : Prop where
  write : ∀ x f, mapping s' x = some f → has (s'.pte x.1 x.2).flags PTE_W = true →
    mapping s x ≠ none ∧ has (s.pte x.1 x.2).flags PTE_W = true
  mmapList : ∀ b, (s'.mm b).mmapList = (s.mm b).mmapList

theorem KeepsReadOnly.refl (s : State) : KeepsReadOnly s s :=
  ⟨fun x f hx hw => ⟨by rw [hx]; exact nofun, hw⟩, fun _ => rfl⟩

theorem KeepsReadOnly.trans {s₁ : State} (h₁ : KeepsReadOnly s s₁) (h₂ : KeepsReadOnly s₁ s') :
    KeepsReadOnly s s' := by
  refine ⟨fun x f hx hw => ?_, fun b => (h₂.mmapList b).trans (h₁.mmapList b)⟩
  obtain ⟨hne, hw₁⟩ := h₂.write x f hx hw
  obtain ⟨g, hg⟩ := Option.ne_none_iff_exists'.mp hne
  exact h₁.write x g hg hw₁

theorem GrowsTables.keepsReadOnly (hg : GrowsTables s s') : KeepsReadOnly s s' := by
  refine ⟨fun x f hx hw => ?_, hg.mmapList⟩
  rw [hg.mapping_eq] at hx
  rw [hg.pte] at hw
  exact ⟨by rw [hx]; exact nofun, hw⟩

/-- A read-only page is inserted. -/
theorem Inserts.keepsReadOnly (hi : Inserts s s' a p page perm) (hw : has perm PTE_W = false) :
    KeepsReadOnly s s' := by
  refine ⟨fun x f hx hxw => ?_, hi.mmapList⟩
  by_cases hxa : x = (a, p)
  · subst hxa
    rw [hi.pte, has_W_pteCreate, hw] at hxw
    exact absurd hxw (by decide)
  · rw [hi.mapping, Function.update_of_ne hxa] at hx
    rw [hi.others x.1 x.2 hxa] at hxw
    exact ⟨by rw [hx]; exact nofun, hxw⟩

theorem Removes.keepsReadOnly (hr : Removes s s' a p f) : KeepsReadOnly s s' := by
  refine ⟨fun x g hx hxw => ?_, hr.mmapList⟩
  rw [hr.mapping] at hx
  by_cases hxa : x = (a, p)
  · rw [hxa, Function.update_self] at hx
    exact nomatch hx
  · rw [Function.update_of_ne hxa] at hx
    rw [hr.others x.1 x.2 hxa] at hxw
    exact ⟨by rw [hx]; exact nofun, hxw⟩

theorem has_W_readOnly (fl : Perm) : has ((fl ||| PTE_COW) &&& ~~~PTE_W) PTE_W = false := by
  rw [has_W]
  simp [PTE_W, PTE_COW]

theorem has_V_readOnly (fl : Perm) :
    has ((fl ||| PTE_COW) &&& ~~~PTE_W) PTE_V = has fl PTE_V := by
  rw [has_V, has_V]
  simp [PTE_W, PTE_COW]

/-- One page of `copy_range`: both entries become read-only, the new page reads the same bytes. -/
theorem sharePage_spec {src : ℕ} (answer : Bool) (dst : ℕ) (h : Sharing pool ∅ s)
    (hx : mapping s (src, p) = some page) :
    sharePage answer dst src p s = (false, s) ∨ ∃ s', sharePage answer dst src p s = (true, s') ∧
      Sharing pool ∅ s' ∧ KeepsReadOnly s s' ∧
      view s' = Function.update (view s) (dst, p) (view s (src, p)) := by
  cases hget : getPte true answer dst p s with
  | none => exact Or.inl (by rw [sharePage, hget])
  | some s₁ =>
    right
    obtain ⟨hg, ht⟩ := getPte_spec hget
    have h₁ := hg.sharing h
    have hx₁ : mapping s₁ (src, p) = some page := by
      rw [hg.mapping_eq]
      exact hx
    obtain ⟨hv, hppn⟩ := mapping_eq_some.mp hx₁
    have hw := has_W_readOnly (s₁.pte src p).flags
    have hv' := (has_V_readOnly (s₁.pte src p).flags).trans hv
    obtain ⟨h₂, hmap₂⟩ := h₁.reflag _ hx₁ hv' fun hc => absurd (hw.symm.trans hc) (by decide)
    have hro₂ : KeepsReadOnly s₁ (s₁.setPte src p
        ⟨page, ((s₁.pte src p).flags ||| PTE_COW) &&& ~~~PTE_W⟩) := by
      refine ⟨fun y f hy hyw => ?_, fun b => setPte_mmapList _ _ _ _ _⟩
      rw [hmap₂] at hy
      by_cases hya : y = (src, p)
      · subst hya
        rw [pte_setPte_self] at hyw
        exact absurd (hw.symm.trans hyw) (by decide)
      · rw [pte_setPte_of_ne _ _ hya] at hyw
        exact ⟨by rw [hy]; exact nofun, hyw⟩
    -- all pages of the frame are read-only now
    have hall : ∀ y, mapping (s₁.setPte src p
        ⟨page, ((s₁.pte src p).flags ||| PTE_COW) &&& ~~~PTE_W⟩) y = some page →
        has ((s₁.setPte src p ⟨page, ((s₁.pte src p).flags ||| PTE_COW) &&& ~~~PTE_W⟩).pte y.1
          y.2).flags PTE_W = false := by
      intro y hy
      rw [hmap₂] at hy
      by_cases hya : y = (src, p)
      · subst hya
        rw [pte_setPte_self]
        exact hw
      · rw [pte_setPte_of_ne _ _ hya]
        refine Bool.eq_false_of_not_eq_true fun hyw => hya ?_
        exact (h₁.alone hy hyw hx₁).symm
    have hwperm := has_W_readOnly ((s₁.pte src p).flags &&& PTE_USER)
    rcases pageInsert_spec answer (a := dst) (p := p) h₂ (h₁.inPool _ _ hx₁)
      (h₁.not_free hx₁) (fun hc => absurd (hwperm.symm.trans hc) (by decide)) hall with
      ⟨-, hno⟩ | ⟨s', heq, h', hi⟩
    · rw [setPte_hasTable, ht] at hno
      exact absurd hno (by decide)
    · rw [Set.empty_sdiff] at h'
      refine ⟨s', ?_, h', (hg.keepsReadOnly.trans hro₂).trans (hi.keepsReadOnly hwperm), ?_⟩
      · rw [sharePage, hget]
        simp only [hppn, heq, decide_true]
      · rw [hi.view_eq, view, hmap₂]
        show Function.update (view s₁) (dst, p) (some (s₁.data page)) = _
        rw [hg.view_eq, hg.data]
        have hsrc : view s (src, p) = some (s.data page) := by
          show (mapping s (src, p)).map s.data = _
          rw [hx]
          rfl
        rw [hsrc]

/-- **`copy_range`** with `share` reads like an eager copy of the pages it got to. -/
theorem copyLoop_spec (answer : ℕ → Bool) (dst src stop : ℕ) :
    ∀ k start s, stop ≤ start + k → Sharing pool ∅ s →
      ∃ r s', copyLoop answer dst src stop k start s = (r, s') ∧ Sharing pool ∅ s' ∧
        KeepsReadOnly s s' ∧ (∀ q, r = some q → start ≤ q ∧ q < stop) ∧
        view s' = (view s).copy dst src start (r.getD stop)
  | 0, start, s, hk, h =>
    ⟨none, s, rfl, h, KeepsReadOnly.refl s, nofun, (Space.copy_of_le (by simpa using hk)).symm⟩
  | k + 1, start, s, hk, h => by
    by_cases hlt : start < stop
    swap
    · refine ⟨none, s, by rw [copyLoop, if_neg hlt], h, KeepsReadOnly.refl s, nofun, ?_⟩
      exact (Space.copy_of_le (by simpa using hlt)).symm
    -- the rest of the loop, after pages of `src` that are not mapped
    have hskip : ∀ start', start < start' →
        (∀ q, start ≤ q → q < start' → view s (src, q) = none) →
        ∃ r s', copyLoop answer dst src stop k start' s = (r, s') ∧ Sharing pool ∅ s' ∧
          KeepsReadOnly s s' ∧ (∀ q, r = some q → start ≤ q ∧ q < stop) ∧
          view s' = (view s).copy dst src start (r.getD stop) := by
      intro start' hlt' hnone
      obtain ⟨r, s', heq, h', hro, hr, hview⟩ := copyLoop_spec answer dst src stop k start' s (by omega) h
      refine ⟨r, s', heq, h', hro, fun q hq => ⟨by have := hr q hq; omega, (hr q hq).2⟩, ?_⟩
      rw [hview, Space.copy_skip (Nat.le_of_lt hlt') hnone]
    rw [copyLoop, if_pos hlt]
    rcases getPte_false false (s := s) (a := src) (p := start) with hget | ⟨hget, ht⟩
    · rw [hget]
      simp only
      cases hx : mapping s (src, start) with
      | none =>
        rw [mapping_eq_none.mp hx]
        simp only [Bool.false_eq_true, if_false]
        refine hskip (start + 1) (Nat.lt_succ_self _) fun q h₁ h₂ => ?_
        have hq : q = start := by omega
        show (mapping s (src, q)).map s.data = none
        rw [hq, hx]
        rfl
      | some page =>
        rw [(mapping_eq_some.mp hx).1, if_pos rfl]
        have hsome : (view s (src, start)).isSome := by
          show ((mapping s (src, start)).map s.data).isSome
          rw [hx]
          rfl
        rcases sharePage_spec (answer start) dst h hx with
          heq | ⟨s₁, heq, h₁, hro₁, hview₁⟩
        · rw [heq]
          refine ⟨some start, s, rfl, h, KeepsReadOnly.refl s, fun q hq => ?_, ?_⟩
          · obtain rfl := Option.some.inj hq
            exact ⟨le_rfl, hlt⟩
          · exact (Space.copy_of_le le_rfl).symm
        · rw [heq]
          obtain ⟨r, s', heq', h', hro, hr, hview⟩ := copyLoop_spec answer dst src stop k (start + 1) s₁ (by omega) h₁
          refine ⟨r, s', heq', h', hro₁.trans hro,
            fun q hq => ⟨by have := hr q hq; omega, (hr q hq).2⟩, ?_⟩
          rw [hview, hview₁]
          refine Space.copy_step ?_ hsome
          cases r with
          | none => exact hlt
          | some q => exact (hr q rfl).1
    · rw [hget]
      refine hskip (nextRegion start) (lt_nextRegion start) fun q h₁ h₂ => ?_
      rw [← region_eq h₁ h₂] at ht
      exact h.view_eq_none ht

/-! ### `unmap_range` -/

/-- `page_remove_pte`, whatever the entry. -/
theorem pageRemovePte_view (h : Sharing pool ∅ s) (a p : ℕ) :
    Sharing pool ∅ (pageRemovePte a p s) ∧ KeepsReadOnly s (pageRemovePte a p s) ∧
      view (pageRemovePte a p s) = Function.update (view s) (a, p) none := by
  cases hx : mapping s (a, p) with
  | none =>
    have heq : pageRemovePte a p s = s := by
      rw [pageRemovePte, mapping_eq_none.mp hx]
      rfl
    rw [heq]
    refine ⟨h, KeepsReadOnly.refl s, ?_⟩
    have hnone : view s (a, p) = none := by
      show (mapping s (a, p)).map s.data = none
      rw [hx]
      rfl
    rw [← hnone, Function.update_eq_self]
  | some f =>
    have hr := pageRemovePte_spec hx
    refine ⟨h.remove hx hr, hr.keepsReadOnly, ?_⟩
    rw [view, hr.mapping, hr.data, Function.comp_update]
    rfl

/-- **`unmap_range`** leaves no page. -/
theorem unmapLoop_spec (a stop : ℕ) : ∀ k start s, stop ≤ start + k → Sharing pool ∅ s →
    Sharing pool ∅ (unmapLoop a stop k start s) ∧
      KeepsReadOnly s (unmapLoop a stop k start s) ∧
      view (unmapLoop a stop k start s) = (view s).unmap a start stop
  | 0, start, s, hk, h =>
    ⟨h, KeepsReadOnly.refl s, (Space.unmap_of_le (by simpa using hk)).symm⟩
  | k + 1, start, s, hk, h => by
    rw [unmapLoop]
    by_cases hlt : start < stop
    swap
    · rw [if_neg hlt]
      exact ⟨h, KeepsReadOnly.refl s, (Space.unmap_of_le (by simpa using hlt)).symm⟩
    rw [if_pos hlt]
    rcases getPte_false false (s := s) (a := a) (p := start) with hget | ⟨hget, ht⟩
    · rw [hget]
      simp only
      have hone : (if s.pte a start ≠ Pte.zero then pageRemovePte a start s else s) =
          pageRemovePte a start s := by
        split
        · rfl
        · rename_i hz
          rw [pageRemovePte, not_not.mp hz]
          rfl
      rw [hone]
      obtain ⟨h₁, hro₁, hview₁⟩ := pageRemovePte_view h a start
      obtain ⟨h', hro, hview⟩ := unmapLoop_spec a stop k (start + 1) _ (by omega) h₁
      refine ⟨h', hro₁.trans hro, ?_⟩
      rw [hview, hview₁, Space.unmap_step hlt]
    · rw [hget]
      have hlt' := lt_nextRegion start
      obtain ⟨h', hro, hview⟩ := unmapLoop_spec a stop k (nextRegion start) s (by omega) h
      refine ⟨h', hro, ?_⟩
      rw [hview]
      refine (Space.unmap_skip (Nat.le_of_lt hlt') fun q h₁ h₂ => ?_).symm
      rw [← region_eq h₁ h₂] at ht
      exact h.view_eq_none ht

end Ucore.Cow
