import Ucore.Cow.Operations

/-!
# Page faults and stores

`Faults` lists the ways in which `do_pgfault` ends: it fails and nothing can be seen of it, it maps a
fresh page of zeros, or it makes a copy-on-write page writable and nothing can be seen of that
either.  `doPgfault_faults` proves that there is no other.
-/

namespace Ucore.Cow

open RefCount

variable {s s' : State} {pool : Set ℕ} {a p f page : ℕ} {x : ℕ × ℕ} {perm : Perm}

/-- Nothing but the entry of page `p` changes in the page tables. -/
structure OnlyPage (s s' : State) (a p : ℕ) : Prop where
  others : ∀ b q, (b, q) ≠ (a, p) → s'.pte b q = s.pte b q
  mmapList : ∀ b, (s'.mm b).mmapList = (s.mm b).mmapList

/-- The results of `do_pgfault` for page `p` of address space `a`. -/
inductive Faults (pool : Set ℕ) (s : State) (a p : ℕ) (write : Bool) : ℤ → State → Prop
  | fails {ret : ℤ} {s' : State} (hret : ret ≠ 0) (h : Sharing pool ∅ s')
      (hro : KeepsReadOnly s s') (hview : view s' = view s) : Faults pool s a p write ret s'
  | fresh {s' : State} {vma : Vma} (hfind : findVma (s.mm a) (p * PGSIZE) = some vma)
      (hnone : mapping s (a, p) = none) (h : Sharing pool ∅ s') (honly : OnlyPage s s' a p)
      (hw : has (s'.pte a p).flags PTE_W = has (vmaPerm vma.vmFlags) PTE_W)
      (hview : view s' = Function.update (view s) (a, p) (some fun _ => 0)) :
      Faults pool s a p write 0 s'
  | cow {s' : State} {vma : Vma} {f : ℕ} (hfind : findVma (s.mm a) (p * PGSIZE) = some vma)
      (hsome : mapping s (a, p) = some f) (hcow : has (s.pte a p).flags PTE_COW = true)
      (hwrite : write = true) (h : Sharing pool ∅ s') (honly : OnlyPage s s' a p)
      (hw : has (s'.pte a p).flags PTE_W = true) (hview : view s' = view s) :
      Faults pool s a p write 0 s'

/-- A new frame is filled and mapped. -/
theorem insertNew_spec {answer : Option ℕ} {s₁ : State} (tanswer : Bool) (perm : Perm) (d : Bytes)
    (h : Sharing pool ∅ s) (ht : (s.mm a).hasTable (p / NPTEENTRY) = true)
    (halloc : allocPage answer s = some (page, s₁)) :
    ∃ s', pageInsert tanswer a page p perm (s₁.setData page d) = (0, s') ∧ Sharing pool ∅ s' ∧
      OnlyPage s s' a p ∧ has (s'.pte a p).flags PTE_W = has perm PTE_W ∧
      view s' = Function.update (view s) (a, p) (some d) := by
  obtain ⟨h₁, hpool, hfree, href, hmap, hdata, hmm, -⟩ := allocPage_spec h halloc
  have hno : ∀ y, mapping s₁ y ≠ some page := fun y => h₁.counts.ne_some href
  rcases pageInsert_spec tanswer (a := a) (p := p) (h₁.setData page d)
    hpool hfree (fun _ : has perm PTE_W = true => href) (fun y hy => absurd hy (hno y)) with
    ⟨-, hnot⟩ | ⟨s', heq, h', hi⟩
  · have hsame : ((s₁.setData page d).mm a).hasTable = (s.mm a).hasTable := congrArg (fun m =>
      (m a).hasTable) hmm
    rw [hsame, ht] at hnot
    exact absurd hnot (by decide)
  · rw [Set.sdiff_self] at h'
    have hpte : ∀ b q, (s₁.setData page d).pte b q = s.pte b q := fun b q =>
      congrArg (fun m => (m b).pte q) hmm
    refine ⟨s', heq, h', ⟨fun b q hbq => (hi.others b q hbq).trans (hpte b q), fun b => ?_⟩, ?_, ?_⟩
    · exact (hi.mmapList b).trans (congrArg (fun m => (m b).mmapList) hmm)
    · rw [hi.pte, has_W_pteCreate]
    · rw [hi.view_eq, view_setData_of_unmapped hno, view, hmap, hdata]
      show Function.update (view s) (a, p) (some (Function.update s₁.data page d page)) = _
      rw [Function.update_self]

theorem has_W_reclaim (fl : Perm) : has ((fl ||| PTE_W) &&& ~~~PTE_COW) PTE_W = true := by
  rw [has_W]
  simp [PTE_W, PTE_COW]

theorem has_V_reclaim (fl : Perm) : has ((fl ||| PTE_W) &&& ~~~PTE_COW) PTE_V = has fl PTE_V := by
  rw [has_V, has_V]
  simp [PTE_W, PTE_COW]

theorem has_W_or (fl : Perm) : has (fl ||| PTE_W) PTE_W = true := by
  rw [has_W]
  simp [PTE_W]

theorem GrowsTables.onlyPage {s₁ : State} (hg : GrowsTables s s₁) (ho : OnlyPage s₁ s' a p) :
    OnlyPage s s' a p :=
  ⟨fun b q hbq => (ho.others b q hbq).trans (hg.pte b q),
    fun b => (ho.mmapList b).trans (hg.mmapList b)⟩

/-- **Page faults.** -/
theorem doPgfault_faults (h : Sharing pool ∅ s) (answers : Answers) (a addr : ℕ)
    (errorCode : Perm) : Faults pool s a (addr / PGSIZE) (has errorCode PTE_W)
      (doPgfault answers a errorCode addr s).1 (doPgfault answers a errorCode addr s).2 := by
  have hinval : -E_INVAL ≠ 0 := by decide
  have hnomem : -E_NO_MEM ≠ 0 := by decide
  rw [doPgfault]
  generalize addr / PGSIZE = p
  simp only
  cases hfind : findVma (s.mm a) (p * PGSIZE) with
  | none => exact .fails hinval h (KeepsReadOnly.refl s) rfl
  | some vma =>
    simp only
    by_cases hstart : vma.vmStart > p * PGSIZE
    · rw [if_pos hstart]
      exact .fails hinval h (KeepsReadOnly.refl s) rfl
    rw [if_neg hstart]
    cases hget : getPte true answers.table a p s with
    | none => exact .fails hnomem h (KeepsReadOnly.refl s) rfl
    | some s₁ =>
      simp only
      obtain ⟨hg, ht⟩ := getPte_spec hget
      have h₁ := hg.sharing h
      cases hx : mapping s₁ (a, p) with
      | none =>
        have hx' : mapping s (a, p) = none := hg.mapping_eq ▸ hx
        rw [mapping_eq_none.mp hx]
        simp only [Bool.false_eq_true, if_false]
        cases halloc : allocPage answers.page s₁ with
        | none => exact .fails hnomem h₁ hg.keepsReadOnly hg.view_eq
        | some r =>
          obtain ⟨npage, s₂⟩ := r
          obtain ⟨s', heq, h', honly, hw, hview⟩ := insertNew_spec answers.table
            (vmaPerm vma.vmFlags) (fun _ => 0) h₁ ht halloc
          simp only [heq]
          rw [hg.view_eq] at hview
          exact .fresh hfind hx' h' (hg.onlyPage honly) hw hview
      | some page =>
        have hx' : mapping s (a, p) = some page := hg.mapping_eq ▸ hx
        obtain ⟨hv, hppn⟩ := mapping_eq_some.mp hx
        rw [hv, if_pos rfl]
        by_cases hcond : (has (s₁.pte a p).flags PTE_COW && has errorCode PTE_W) = true
        swap
        · rw [if_neg hcond]
          exact .fails hinval h₁ hg.keepsReadOnly hg.view_eq
        rw [if_pos hcond]
        obtain ⟨hcow, hwrite⟩ := Bool.and_eq_true_iff.mp hcond
        rw [hg.pte] at hcow
        by_cases href : s₁.ref (s₁.pte a p).ppn > 1
        · rw [if_pos href]
          cases halloc : allocPage answers.page s₁ with
          | none => exact .fails hnomem h₁ hg.keepsReadOnly hg.view_eq
          | some r =>
            obtain ⟨npage, s₂⟩ := r
            obtain ⟨s', heq, h', honly, hw, hview⟩ := insertNew_spec answers.table
              ((vmaPerm vma.vmFlags &&& ~~~PTE_COW) ||| PTE_W) (s₂.data (s₁.pte a p).ppn) h₁ ht
              halloc
            simp only [heq]
            rw [has_W_or] at hw
            refine .cow hfind hx' hcow hwrite h' (hg.onlyPage honly) hw ?_
            -- the copy reads what the shared frame reads
            have hdata : s₂.data = s₁.data := (allocPage_spec h₁ halloc).2.2.2.2.2.1
            have hsame : view s₁ (a, p) = some (s₂.data (s₁.pte a p).ppn) := by
              show (mapping s₁ (a, p)).map s₁.data = _
              rw [hx, hdata, hppn]
              rfl
            rw [hview, ← hsame, Function.update_eq_self, hg.view_eq]
        · rw [if_neg href, hppn]
          rw [hppn] at href
          have hone : s₁.ref page = 1 := by
            have := h₁.counts.pos hx
            omega
          obtain ⟨h₂, hmap₂⟩ := h₁.reflag
            (((s₁.pte a p).flags ||| PTE_W) &&& ~~~PTE_COW) hx
            ((has_V_reclaim _).trans hv) fun _ => hone
          refine .cow hfind hx' hcow hwrite h₂ (hg.onlyPage ⟨fun b q hbq =>
            pte_setPte_of_ne _ _ hbq, fun b => setPte_mmapList _ _ _ _ _⟩) ?_ ?_
          · rw [pte_setPte_self]
            exact has_W_reclaim _
          · rw [view, hmap₂]
            exact hg.view_eq

/-- `pgdir_alloc_page`: without a page nothing has changed. -/
theorem pgdirAllocPage_spec (h : Sharing pool ∅ s) (answers : Answers) (a p : ℕ) (perm : Perm)
    (d : Bytes) :
    pgdirAllocPage answers a p perm d s = (none, s) ∨
      ∃ page s', pgdirAllocPage answers a p perm d s = (some page, s') ∧ Sharing pool ∅ s' ∧
        OnlyPage s s' a p ∧ has (s'.pte a p).flags PTE_W = has perm PTE_W ∧
        view s' = Function.update (view s) (a, p) (some d) := by
  cases halloc : allocPage answers.page s with
  | none => exact Or.inl (by rw [pgdirAllocPage, halloc])
  | some r =>
    obtain ⟨page, s₁⟩ := r
    obtain ⟨h₁, hpool, hfree, href, hmap, hdata, hmm, hwas, heq₁⟩ := allocPage_spec h halloc
    have hno : ∀ y, mapping s₁ y ≠ some page := fun y => h₁.counts.ne_some href
    rcases pageInsert_spec answers.table (a := a) (p := p) h₁ hpool hfree
      (fun _ : has perm PTE_W = true => href) (fun y hy => absurd hy (hno y)) with ⟨heq, -⟩ | ⟨s', heq, h', hi⟩
    · left
      have hne : -E_NO_MEM ≠ 0 := by decide
      rw [pgdirAllocPage, halloc]
      simp only [heq, if_pos hne]
      rw [heq₁, freePage]
      simp only [Function.update_idem]
      rw [← hwas, Function.update_eq_self]
    · right
      rw [Set.sdiff_self] at h'
      refine ⟨page, s'.setData page d, ?_, h'.setData page d, ⟨fun b q hbq => ?_, fun b => ?_⟩, ?_,
        ?_⟩
      · rw [pgdirAllocPage, halloc]
        simp only [heq]
        rfl
      · exact (hi.others b q hbq).trans (congrArg (fun m => (m b).pte q) hmm)
      · exact (hi.mmapList b).trans (congrArg (fun m => (m b).mmapList) hmm)
      · show has (s'.pte a p).flags PTE_W = _
        rw [hi.pte, has_W_pteCreate]
      · have hself : mapping s' (a, p) = some page := by rw [hi.mapping, Function.update_self]
        rw [view_setData_of_alone hself, hi.view_eq, Function.update_idem, view, view, hmap, hdata]
        intro y hy
        rw [hi.mapping] at hy
        by_contra hya
        rw [Function.update_of_ne hya] at hy
        exact hno y hy

/-- A store through a writable entry changes one page of one address space. -/
theorem userStore_spec (h : Sharing pool ∅ s) (hx : mapping s (a, p) = some f)
    (hw : has (s.pte a p).flags PTE_W = true) (i : Fin PGSIZE) (b : UInt8) :
    Sharing pool ∅ (userStore a p i b s) ∧ KeepsReadOnly s (userStore a p i b s) ∧
      view (userStore a p i b s) = Function.update (view s) (a, p)
        ((view s (a, p)).map fun d => Function.update d i b) := by
  obtain ⟨hv, rfl⟩ := mapping_eq_some.mp hx
  refine ⟨h.setData _ _, ⟨fun x f hx hw => ⟨?_, hw⟩, fun _ => rfl⟩, ?_⟩
  · have hx' : mapping s x = some f := hx
    rw [hx']
    exact nofun
  rw [userStore, view_setData_of_alone hx fun y hy => h.alone hx hw hy]
  show _ = Function.update (view s) (a, p) (((mapping s (a, p)).map s.data).map _)
  rw [hx]
  rfl

end Ucore.Cow
