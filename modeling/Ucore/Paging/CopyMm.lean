import Ucore.Paging.Runs

/-!
# `copy_mm`

`dup_mmap` copies the segments of the parent one by one, and its caller tears down what there is of the
child when one of them cannot be copied.  Where `copy_mm` comes back at all (`copy_range` asserts that it
gets a frame), it has done everything or nothing:

* **`copyMm_exact`**: on success the child maps the pages that its parent maps, on frames of its own with
  the same bytes, and on an error no holder has changed.

Both rest on runs: all calls of `copy_mm` are calls on the child, and these leave the others untouched
(`Untouched`).
-/

namespace Ucore.Paging

open Cow (E_NO_MEM NPTEENTRY PGSIZE PTE_USER PTE_V Perm Pte Vma has nextRegion)
open Holdings Relation Transition

variable {alloc : Allocator} {s s' s'' : State} {a b i p q f start stop dst src : ℕ} {total lost : Set ℕ}
  {roots : Roots} {vmas : List Vma} {w w' w'' : World} {mm : Mm}

/-! ### The code -/

/-- The loop of `dup_mmap` over the segments of `src`; `memVma` says for which of them `vma_create` gets
memory. -/
def World.dupMmap (alloc : Allocator) (memVma : Vma → Bool) (dst src : ℕ) : List Vma → World → Option (ℤ × World)
  | [], w => some (0, w)
  | vma :: rest, w =>
    if memVma vma then do
      let w ← w.call (.mmMap dst vma)
      let (ret, s) ← copyRange alloc dst src vma.vmStart vma.vmEnd w.st
      if ret = 0 then World.dupMmap alloc memVma dst src rest ⟨s, w.mm⟩
      else return (-E_NO_MEM, ⟨s, w.mm⟩)
    else return (-E_NO_MEM, w)

/-- `copy_mm` without `CLONE_VM`; `mem` says whether `mm_create` gets memory. -/
def World.copyMm (alloc : Allocator) (mem : Bool) (memVma : Vma → Bool) (child parent : ℕ) (w : World) :
    Option (ℤ × World) :=
  match w.mm parent with
  | none => some (0, w)
  | some oldmm =>
    if mem then do
      let w ← w.call (.setupPgdir alloc child)
      match w.mm child with
      | none => return (-E_NO_MEM, w)
      | some _ =>
        let (ret, w) ← World.dupMmap alloc memVma child parent oldmm.mmapList.reverse w
        if ret = 0 then return (0, w)
        else do
          let w ← w.call (.exit child)
          return (ret, w)
    else some (-E_NO_MEM, w)

/-! ### Calls on one address space -/

/-- The address space that a call changes. -/
def Call.target : Call → ℕ
  | .setupPgdir _ a => a
  | .mmMap a _ => a
  | .pgdirAllocPage _ a _ _ => a
  | .copyRange _ dst _ _ => dst
  | .unmapRange a _ _ => a
  | .exit a => a

/-- The other address spaces, their tables and what is in their frames. -/
structure Untouched (w w' : World) (a : ℕ) : Prop where
  mm : ∀ b, b ≠ a → w'.mm b = w.mm b
  mapping : ∀ b, b ≠ a → ∀ q, mapping w'.st b q = mapping w.st b q
  node : ∀ x : Node, x.space ≠ a → w'.st.node x = w.st.node x
  data : ∀ b, b ≠ a → ∀ q f, Paging.mapping w.st b q = some f → w'.st.data f = w.st.data f

theorem Untouched.refl (w : World) (a : ℕ) : Untouched w w a :=
  ⟨fun _ _ => rfl, fun _ _ _ => rfl, fun _ _ => rfl, fun _ _ _ _ _ => rfl⟩

theorem Untouched.trans (h₁ : Untouched w w' a) (h₂ : Untouched w' w'' a) : Untouched w w'' a := by
  refine ⟨fun b hb => (h₂.mm b hb).trans (h₁.mm b hb), fun b hb q => (h₂.mapping b hb q).trans (h₁.mapping b hb q),
    fun x hx => (h₂.node x hx).trans (h₁.node x hx), fun b hb q f hf => ?_⟩
  exact (h₂.data b hb q f ((h₁.mapping b hb q).trans hf)).trans (h₁.data b hb q f hf)

theorem Touches.untouched {P : Finset ℕ} (h : Touches w.st s' a P) : Untouched w ⟨s', w.mm⟩ a :=
  ⟨fun _ _ => rfl, fun b hb q => h.mapping b q fun hba => absurd hba hb, h.node,
    fun b hb q f => h.data b q f fun hba => absurd hba hb⟩

/-- A call leaves the other address spaces alone. -/
theorem Accounted.untouched (h : Accounted total lost w) {c : Call} (hcall : w.call c = some w') :
    Untouched w w' c.target := by
  cases c with
  | setupPgdir alloc a =>
    rw [World.call] at hcall
    cases ha : w.mm a with
    | some mm =>
      rw [ha] at hcall
      cases hcall
    | none =>
      rw [ha] at hcall
      cases halloc : allocPage alloc w.st with
      | none =>
        rw [halloc] at hcall
        obtain rfl := Option.some.inj hcall
        exact Untouched.refl w a
      | some r =>
        obtain ⟨page, s⟩ := r
        rw [halloc] at hcall
        obtain rfl := Option.some.inj hcall
        obtain ⟨-, hpgdir, hdata, -⟩ := h.booked.allocPage halloc
        have hsame : s.noDirs a = s := noDirs_eq_self fun i => by rw [hpgdir, h.gone a ha i]
        rw [hsame]
        have htouch : Touches w.st s a ∅ := Touches.of_pgdir hpgdir (fun _ _ _ _ => by rw [hdata]) a ∅
        have hun := htouch.untouched
        exact ⟨fun b hb => Function.update_of_ne hb _ _, hun.mapping, hun.node, hun.data⟩
  | mmMap a vma =>
    obtain ⟨mm, ha, hcall⟩ := Option.bind_eq_some_iff.mp hcall
    split at hcall
    swap
    · cases hcall
    obtain rfl := Option.some.inj hcall
    exact ⟨fun b hb => Function.update_of_ne hb _ _, fun _ _ _ => rfl, fun _ _ => rfl, fun _ _ _ _ _ => rfl⟩
  | pgdirAllocPage alloc a p perm =>
    obtain ⟨mm, ha, hcall⟩ := Option.bind_eq_some_iff.mp hcall
    split at hcall
    swap
    · cases hcall
    obtain ⟨r, hrun, rfl⟩ := Option.map_eq_some_iff.mp hcall
    obtain ⟨o, s', hrun', -, htouch⟩ := h.booked.pgdirAllocPage alloc a p perm
    obtain rfl := Option.some.inj (hrun'.symm.trans hrun)
    exact htouch.untouched
  | copyRange alloc dst src vma =>
    obtain ⟨mm, ha, hcall⟩ := Option.bind_eq_some_iff.mp hcall
    split at hcall
    swap
    · cases hcall
    obtain ⟨⟨r, s'⟩, hrun, rfl⟩ := Option.map_eq_some_iff.mp hcall
    exact (h.booked.copyRange hrun).2.untouched
  | unmapRange a start stop =>
    obtain ⟨s', hrun, rfl⟩ := Option.map_eq_some_iff.mp hcall
    exact (h.booked.unmapRange hrun).2.touches.untouched
  | exit a =>
    obtain ⟨mm, ha, hcall⟩ := Option.bind_eq_some_iff.mp hcall
    obtain ⟨s', hrun, rfl⟩ := Option.map_eq_some_iff.mp hcall
    have hroot : w.pgdirs a = some mm.pgdir := by
      rw [World.pgdirs, ha]
      rfl
    obtain ⟨t, lost', hexit, hspares, -⟩ := h.booked.exit (h.segments a mm ha) hroot (h.high a)
    obtain rfl := Option.some.inj (hexit.symm.trans hrun)
    exact ⟨fun b hb => Function.update_of_ne hb _ _, hspares.mapping, hspares.node,
      fun _ _ _ f _ => congrFun hspares.data f⟩

/-- The calls on one address space that lose no page. -/
def On (a : ℕ) (w : World) (c : Call) : Prop := c.target = a ∧ Tidy w c

theorem Accounted.run_untouched (h : Accounted total lost w) (hrun : ReflTransGen (Step (On a)) w w') :
    Untouched w w' a := by
  induction hrun with
  | refl => exact Untouched.refl w a
  | @tail v v' hwv hstep ih =>
    obtain ⟨c, hc, hcall⟩ := hstep
    obtain ⟨lost₁, h₁, -⟩ := h.run hwv
    exact ih.trans (hc.1 ▸ h₁.untouched hcall)

/-- An address space that comes and goes leaves no trace but lost pages. -/
theorem Accounted.no_trace (h : Accounted total lost w) {lost' : Set ℕ} (h' : Accounted total lost' w')
    (hun : Untouched w w' a) (ha : w.mm a = none) (ha' : w'.mm a = none) (hlost : lost ⊆ lost') :
    w'.mm = w.mm ∧ (∀ x, w'.held x = w.held x) ∧ w'.st.free ⊆ w.st.free ∧
      (lost' = lost → w'.st.free = w.st.free) := by
  have hmm : w'.mm = w.mm := by
    funext b
    by_cases hb : b = a
    · rw [hb, ha, ha']
    · exact hun.mm b hb
  have hheld : ∀ x, w'.held x = w.held x := by
    intro x
    cases x with
    | root b => exact congrArg (Option.map Mm.pgdir) (congrFun hmm b)
    | node x =>
      by_cases hx : x.space = a
      · have hnone : ∀ {v : World}, (∀ i, v.st.pgdir a i = none) → v.st.node x = none := by
          intro v hgone
          cases x with
          | dir b i =>
            obtain rfl : b = a := hx
            exact node_dir_none (hgone i)
          | table b r =>
            obtain rfl : b = a := hx
            exact congrArg (Option.map Table.page) (table_of_none (hgone _))
        exact (hnone (h'.gone a ha')).trans (hnone (h.gone a ha)).symm
      · exact hun.node x hx
    | frame b q =>
      by_cases hb : b = a
      · have hnone : ∀ {v : World}, (∀ i, v.st.pgdir a i = none) → mapping v.st a q = none := by
          intro v hgone
          rw [mapping_eq_none, pte_of_none (table_of_none (hgone _))]
          decide
        subst hb
        exact (hnone (h'.gone b ha')).trans (hnone (h.gone b ha)).symm
      · exact hun.mapping b hb q
    | hand => rfl
  have hb := h.booked.balanced
  have hb' := h'.booked.balanced
  -- a free page is neither lost nor held, before and after
  have hback : ∀ f ∈ w'.st.free, f ∈ w.st.free := by
    intro f hf
    rcases (hb.total f).mp ((hb'.total f).mpr (.inl hf)) with hf' | hf' | ⟨x, hx⟩
    · exact hf'
    · exact absurd (hlost hf') (hb'.apart f hf)
    · exact absurd hf (hb'.free x f ((hheld x).trans hx))
  refine ⟨hmm, hheld, hback, fun heq => Finset.Subset.antisymm hback fun f hf => ?_⟩
  subst heq
  rcases (hb'.total f).mp ((hb.total f).mpr (.inl hf)) with hf' | hf' | ⟨x, hx⟩
  · exact hf'
  · exact absurd hf' (hb.apart f hf)
  · exact absurd hf (hb.free x f ((hheld x).symm.trans hx))

/-! ### What has been copied -/

/-- `get_pte` that finds or makes the table has taken the pages that were missing. -/
theorem takes_getPte (hget : getPte alloc true a p s = (true, s')) :
    Takes alloc (missing s a p) s.free s'.free := by
  cases hd : s.pgdir a (pdx1 p) with
  | some pd0 =>
    rw [getPte, getDir, hd] at hget
    dsimp only at hget
    rw [missing, hd, table_of_dir hd]
    cases ht : pd0.entry (pdx0 p) with
    | some pt =>
      rw [ht] at hget
      obtain ⟨-, rfl⟩ := Prod.mk.inj hget
      rfl
    | none =>
      rw [ht] at hget
      simp only [if_true] at hget
      cases halloc : allocPage alloc s with
      | none =>
        rw [halloc] at hget
        cases hget
      | some r =>
        obtain ⟨page, t⟩ := r
        rw [halloc] at hget
        obtain ⟨-, rfl⟩ := Prod.mk.inj hget
        obtain ⟨-, rfl, htake⟩ := allocPage_some halloc
        exact htake
  | none =>
    rw [getPte, getDir, hd] at hget
    simp only [if_true] at hget
    rw [missing, hd, table_of_none hd]
    cases halloc : allocPage alloc s with
    | none =>
      rw [halloc] at hget
      cases hget
    | some r =>
      obtain ⟨page, t⟩ := r
      obtain ⟨-, rfl, htake⟩ := allocPage_some halloc
      rw [halloc] at hget
      dsimp only at hget
      generalize hs₁ : (setPageRef page 1 { s with free := s.free.erase page }).setDir a (pdx1 p)
        (some ⟨page, fun _ => none⟩) = s₁ at hget
      have hfree : s₁.free = s.free.erase page := hs₁ ▸ rfl
      cases halloc' : allocPage alloc s₁ with
      | none =>
        rw [halloc'] at hget
        cases hget
      | some r =>
        obtain ⟨page', t⟩ := r
        rw [halloc'] at hget
        obtain ⟨-, rfl⟩ := Prod.mk.inj hget
        obtain ⟨-, rfl, htake'⟩ := allocPage_some halloc'
        have hnext : Takes alloc 1 (s.free.erase page) (s₁.free.erase page') := by
          rw [← hfree]
          exact htake'
        exact htake.trans hnext

/-- **One turn of `copy_range`** that goes through. -/
theorem copied_page (h : Booked total roots lost s none) (hne : src ≠ dst)
    (hsrc : has (s.pte src p).flags PTE_V = true) (hdst : mapping s dst p = none)
    (hcopy : copyPage alloc dst src p s = some (0, s')) : Copied s s' dst src {p} := by
  have hppn : (s.pte src p).ppn ∉ s.free :=
    h.balanced.free (.frame src p) _ (mapping_eq_some.mpr ⟨hsrc, rfl⟩)
  -- the pages that the turn needs were there
  have hserves : Serves alloc (missing s dst p + 1) s.free := by
    cases hget : getPte alloc true dst p s with
    | mk found s₁ =>
      rw [copyPage, hget] at hcopy
      cases found with
      | false => exact absurd (Prod.mk.inj (Option.some.inj hcopy)).1 (by decide)
      | true =>
        have htakes := takes_getPte hget
        dsimp only at hcopy
        cases halloc : allocPage alloc s₁ with
        | none =>
          rw [halloc] at hcopy
          cases hcopy
        | some r =>
          exact ⟨_, htakes.trans (allocPage_some halloc).2.2⟩
  obtain ⟨t, hrun, hcopied, -⟩ := copyPage_spec hne h.refs.free hsrc hppn hdst hserves
  obtain ⟨-, rfl⟩ := Prod.mk.inj (Option.some.inj (hrun.symm.trans hcopy))
  exact hcopied

/-- **The loop of `copy_range`** that goes through. -/
theorem copied_loop (hne : src ≠ dst) : ∀ k start s, stop ≤ start + k → Booked total roots lost s none →
    (∀ p, start ≤ p → p < stop → mapping s dst p = none) →
    copyLoop alloc dst src stop k start s = some (0, s') →
    Copied s s' dst src (mappedPages s src start stop) := by
  intro k
  induction k with
  | zero =>
    intro start s hk _ _ hloop
    have hempty : mappedPages s src start stop = ∅ := by
      rw [mappedPages, Finset.Ico_eq_empty (by omega), Finset.filter_empty]
    obtain ⟨-, rfl⟩ := Prod.mk.inj (Option.some.inj hloop)
    rw [hempty]
    exact Copied.refl s dst src
  | succ k ih =>
    intro start s hk h hdst hloop
    rw [copyLoop] at hloop
    by_cases hlt : start < stop
    swap
    · have hempty : mappedPages s src start stop = ∅ := by
        rw [mappedPages, Finset.Ico_eq_empty hlt, Finset.filter_empty]
      rw [if_neg hlt] at hloop
      obtain ⟨-, rfl⟩ := Prod.mk.inj (Option.some.inj hloop)
      rw [hempty]
      exact Copied.refl s dst src
    rw [if_pos hlt] at hloop
    -- the rest of the loop, after pages that `src` does not map
    have hskip : ∀ start', start < start' → (∀ q, start ≤ q → q < start' → mapping s src q = none) →
        copyLoop alloc dst src stop k start' s = some (0, s') →
        Copied s s' dst src (mappedPages s src start stop) := by
      intro start' hlt' hnone hrest
      have heq : mappedPages s src start stop = mappedPages s src start' stop := by
        ext q
        rw [mem_mappedPages, mem_mappedPages]
        refine and_congr_left fun hq => ?_
        have hge : start ≤ q → start' ≤ q := fun h₁ => Nat.le_of_not_lt fun h₂ => by
          rw [hnone q h₁ h₂] at hq
          cases hq
        omega
      rw [heq]
      exact ih start' s (by omega) h (fun p h₁ => hdst p (by omega)) hrest
    cases ht : s.table src start with
    | none =>
      rw [ht] at hloop
      exact hskip _ (Cow.lt_nextRegion start) (fun q h₁ h₂ => mapping_of_region ht h₁ h₂) hloop
    | some pt =>
      rw [ht] at hloop
      dsimp only at hloop
      cases hx : mapping s src start with
      | none =>
        rw [mapping_eq_none.mp hx] at hloop
        refine hskip (start + 1) (Nat.lt_succ_self _) (fun q h₁ h₂ => ?_) hloop
        have hq : q = start := by omega
        rw [hq, hx]
      | some f =>
        have hv := (mapping_eq_some.mp hx).1
        rw [if_pos hv] at hloop
        have hsome : (mapping s src start).isSome := by
          rw [hx]
          rfl
        cases hcopy : copyPage alloc dst src start s with
        | none =>
          rw [hcopy] at hloop
          cases hloop
        | some r =>
          obtain ⟨ret, s₁⟩ := r
          rw [hcopy] at hloop
          dsimp only at hloop
          by_cases hret : ret = 0
          swap
          · rw [if_neg hret] at hloop
            exact absurd (Prod.mk.inj (Option.some.inj hloop)).1 hret
          subst hret
          rw [if_pos rfl] at hloop
          have hc := copied_page h hne hv (hdst start le_rfl hlt) hcopy
          have hmap : ∀ q, mapping s₁ src q = mapping s src q := fun q => mapping_congr (hc.pte_src hne q)
          have hrest := ih (start + 1) s₁ (by omega) (h.copyPage hcopy).1 (fun p h₁ h₂ => by
            have hp : p ∉ ({start} : Finset ℕ) := by
              rw [Finset.mem_singleton]
              omega
            rw [mapping_congr (hc.pte dst p (notMem_image (Or.inr hp)))]
            exact hdst p (by omega) h₂) hloop
          have hpages : mappedPages s src start stop = {start} ∪ mappedPages s₁ src (start + 1) stop := by
            rw [mappedPages_step hlt hsome hmap]
            rfl
          have hdisj : Disjoint {start} (mappedPages s₁ src (start + 1) stop) := by
            rw [Finset.disjoint_singleton_left, mem_mappedPages]
            omega
          rw [hpages]
          refine hc.trans hrest hne hdisj fun q hq => ?_
          obtain ⟨g, hg⟩ := Option.isSome_iff_exists.mp (mem_mappedPages.mp hq).2
          rw [hmap] at hg
          exact h.balanced.free (.frame src q) _ (mapping_eq_some.mpr ⟨(mapping_eq_some.mp hg).1, rfl⟩)

/-! ### `dup_mmap` -/

/-- A turn of `dup_mmap` that copies: two calls on `dst`. -/
theorem dupMmap_cons {memVma : Vma → Bool} {vma : Vma} {rest : List Vma} {r : ℤ}
    (hdup : World.dupMmap alloc memVma dst src (vma :: rest) w = some (r, w')) :
    r = -E_NO_MEM ∧ w' = w ∨ ∃ w₁ ret s, w.call (.mmMap dst vma) = some w₁ ∧
      copyRange alloc dst src vma.vmStart vma.vmEnd w₁.st = some (ret, s) ∧
      (ret = 0 ∧ World.dupMmap alloc memVma dst src rest ⟨s, w₁.mm⟩ = some (r, w') ∨
        ret ≠ 0 ∧ r = -E_NO_MEM ∧ w' = ⟨s, w₁.mm⟩) := by
  rw [World.dupMmap] at hdup
  split at hdup
  · obtain ⟨w₁, hmap, hdup⟩ := Option.bind_eq_some_iff.mp hdup
    obtain ⟨⟨ret, s⟩, hcopy, hdup⟩ := Option.bind_eq_some_iff.mp hdup
    refine .inr ⟨w₁, ret, s, hmap, hcopy, ?_⟩
    dsimp only at hdup
    by_cases hret : ret = 0
    · rw [if_pos hret] at hdup
      exact .inl ⟨hret, hdup⟩
    · rw [if_neg hret] at hdup
      obtain ⟨rfl, rfl⟩ := Prod.mk.inj (Option.some.inj hdup)
      exact .inr ⟨hret, rfl, rfl⟩
  · obtain ⟨rfl, rfl⟩ := Prod.mk.inj (Option.some.inj hdup)
    exact .inl ⟨rfl, rfl⟩

/-- `insert_vma_struct` that goes through. -/
theorem call_mmMap {vma : Vma} (hcall : w.call (.mmMap a vma) = some w') :
    ∃ mm, w.mm a = some mm ∧ UserRange vma.vmStart vma.vmEnd ∧
      w' = ⟨w.st, Function.update w.mm a (some ⟨mm.pgdir, insertVmaStruct mm.mmapList vma⟩)⟩ := by
  obtain ⟨mm, ha, hcall⟩ := Option.bind_eq_some_iff.mp hcall
  split at hcall
  · rename_i hguard
    exact ⟨mm, ha, hguard.1, (Option.some.inj hcall).symm⟩
  · cases hcall

theorem call_copyRange {vma : Vma} {ret : ℤ} (ha : w.mm dst = some mm) (hvma : vma ∈ mm.mmapList)
    (hcopy : copyRange alloc dst src vma.vmStart vma.vmEnd w.st = some (ret, s)) :
    w.call (.copyRange alloc dst src vma) = some ⟨s, w.mm⟩ := by
  rw [World.call, ha]
  show (if vma ∈ mm.mmapList then _ else _) = _
  rw [if_pos hvma, hcopy]
  rfl

/-- **`dup_mmap`** is a run of calls on the new address space. -/
theorem dupMmap_run {memVma : Vma → Bool} {r : ℤ} (hdup : World.dupMmap alloc memVma dst src vmas w = some (r, w')) :
    ReflTransGen (Step (On dst)) w w' ∧ (r = 0 ∨ r = -E_NO_MEM) ∧ (w.mm dst).isSome = (w'.mm dst).isSome := by
  induction vmas generalizing w with
  | nil =>
    obtain ⟨rfl, rfl⟩ := Prod.mk.inj (Option.some.inj hdup)
    exact ⟨.refl, .inl rfl, rfl⟩
  | cons vma rest ih =>
    obtain ⟨rfl, rfl⟩ | ⟨w₁, ret, s, hmap, hcopy, hrest⟩ := dupMmap_cons hdup
    · exact ⟨.refl, .inr rfl, rfl⟩
    obtain ⟨mm, ha, -, rfl⟩ := call_mmMap hmap
    have hself : Function.update w.mm dst (some ⟨mm.pgdir, insertVmaStruct mm.mmapList vma⟩) dst =
        some ⟨mm.pgdir, insertVmaStruct mm.mmapList vma⟩ := Function.update_self _ _ _
    have hmem : vma ∈ insertVmaStruct mm.mmapList vma :=
      (perm_insertVmaStruct mm.mmapList vma).mem_iff.mpr List.mem_cons_self
    have hcall := call_copyRange (w := ⟨w.st, _⟩) hself hmem hcopy
    have htwo : ReflTransGen (Step (On dst)) w ⟨s, _⟩ := 
      .tail (.single ⟨.mmMap dst vma, ⟨rfl, trivial⟩, hmap⟩) ⟨.copyRange alloc dst src vma, ⟨rfl, trivial⟩, hcall⟩
    obtain ⟨-, hrest⟩ | ⟨-, rfl, rfl⟩ := hrest
    · obtain ⟨hrun, hr, hsome⟩ := ih hrest
      refine ⟨htwo.trans hrun, hr, ?_⟩
      rw [← hsome, ha]
      dsimp only
      rw [hself]
      rfl
    · refine ⟨htwo, .inr rfl, ?_⟩
      rw [ha]
      dsimp only
      rw [hself]
      rfl

/-- The pages of these segments that `a` maps. -/
def mappedIn (s : State) (a : ℕ) (vmas : List Vma) : Finset ℕ :=
  (allPages vmas).filter fun p => (mapping s a p).isSome

theorem mem_mappedIn : p ∈ mappedIn s a vmas ↔ p ∈ allPages vmas ∧ (mapping s a p).isSome := by
  rw [mappedIn, Finset.mem_filter]

/-- **`dup_mmap`** that goes through has copied all segments. -/
theorem dupMmap_copied {memVma : Vma → Bool} (h : Accounted total lost w) (hne : src ≠ dst)
    (hapart : vmas.Pairwise fun v v' => Disjoint (pagesOf v) (pagesOf v'))
    (hdst : ∀ p ∈ allPages vmas, mapping w.st dst p = none) (hmm : w.mm dst = some mm)
    (hdup : World.dupMmap alloc memVma dst src vmas w = some (0, w')) :
    Copied w.st w'.st dst src (mappedIn w.st src vmas) ∧
      ∃ mm', w'.mm dst = some mm' ∧ mm'.mmapList.Perm (vmas.reverse ++ mm.mmapList) := by
  induction vmas generalizing w mm lost with
  | nil =>
    obtain ⟨-, rfl⟩ := Prod.mk.inj (Option.some.inj hdup)
    exact ⟨Copied.refl w.st dst src, mm, hmm, List.Perm.refl _⟩
  | cons vma rest ih =>
    obtain ⟨hnot, -⟩ | ⟨w₁, ret, s, hmap, hcopy, ⟨rfl, hrest⟩ | ⟨-, hnot, -⟩⟩ := dupMmap_cons hdup
    · exact absurd hnot (by decide)
    swap
    · exact absurd hnot (by decide)
    obtain ⟨hfirst, hapart⟩ := List.pairwise_cons.mp hapart
    obtain ⟨lost₁, h₁, -⟩ := h.call hmap
    obtain ⟨mm₀, hmm₀, hr, rfl⟩ := call_mmMap hmap
    obtain rfl := Option.some.inj (hmm.symm.trans hmm₀)
    have hself : Function.update w.mm dst (some ⟨mm.pgdir, insertVmaStruct mm.mmapList vma⟩) dst =
        some ⟨mm.pgdir, insertVmaStruct mm.mmapList vma⟩ := Function.update_self _ _ _
    have hperm := perm_insertVmaStruct mm.mmapList vma
    have hcall := call_copyRange (w := ⟨w.st, _⟩) hself (hperm.mem_iff.mpr List.mem_cons_self) hcopy
    obtain ⟨lost₂, h₂, -⟩ := h₁.call hcall
    have hpages : ∀ p, p ∈ mappedPages w.st src (vma.vmStart / PGSIZE) (vma.vmEnd / PGSIZE) ↔
        p ∈ pagesOf vma ∧ (mapping w.st src p).isSome := fun p => by
      rw [mem_mappedPages, pagesOf, Finset.mem_Ico]
    -- this segment
    have hone : Copied w.st s dst src (mappedPages w.st src (vma.vmStart / PGSIZE) (vma.vmEnd / PGSIZE)) := by
      rw [copyRange, if_pos hr] at hcopy
      refine copied_loop hne _ _ w.st (by omega) h₁.booked (fun p h₁ h₂ => hdst p ?_) hcopy
      exact Finset.mem_union_left _ (Finset.mem_Ico.mpr ⟨h₁, h₂⟩)
    -- the others
    have hdisj := disjoint_allPages hfirst
    have hdst₂ : ∀ p ∈ allPages rest, mapping s dst p = none := by
      intro p hp
      have hnot : p ∉ mappedPages w.st src (vma.vmStart / PGSIZE) (vma.vmEnd / PGSIZE) := fun hmem =>
        Finset.disjoint_left.mp hdisj ((hpages p).mp hmem).1 hp
      rw [mapping_congr (hone.pte dst p (notMem_image (Or.inr hnot)))]
      exact hdst p (Finset.mem_union_right _ hp)
    have hmap₂ : ∀ q, mapping s src q = mapping w.st src q := fun q => mapping_congr (hone.pte_src hne q)
    obtain ⟨hothers, mm', hmm', hperm'⟩ := ih h₂ hapart hdst₂ hself hrest
    have hsame : mappedIn s src rest = mappedIn w.st src rest := by
      ext q
      rw [mem_mappedIn, mem_mappedIn, hmap₂]
    have hsplit : mappedIn w.st src (vma :: rest) =
        mappedPages w.st src (vma.vmStart / PGSIZE) (vma.vmEnd / PGSIZE) ∪ mappedIn w.st src rest := by
      ext q
      rw [mem_mappedIn, allPages, Finset.mem_union, Finset.mem_union, hpages, mem_mappedIn]
      exact or_and_right
    dsimp only at hothers
    rw [hsame] at hothers
    rw [hsplit]
    refine ⟨hone.trans hothers hne ?_ fun q hq => ?_, mm', hmm', ?_⟩
    · refine Finset.disjoint_left.mpr fun q hq hq' => ?_
      exact Finset.disjoint_left.mp hdisj ((hpages q).mp hq).1 (mem_mappedIn.mp hq').1
    · obtain ⟨g, hg⟩ := Option.isSome_iff_exists.mp (mem_mappedIn.mp hq).2
      exact h.booked.balanced.free (.frame src q) _ (mapping_eq_some.mpr ⟨(mapping_eq_some.mp hg).1, rfl⟩)
    · refine hperm'.trans ?_
      rw [List.reverse_cons, List.append_assoc]
      exact (List.Perm.append_left _ hperm)

/-! ### The whole of `copy_mm` -/

/-- What a successful `copy_mm` has done for `child`. -/
structure Duplicated (w w' : World) (child parent : ℕ) (oldmm : Mm) : Prop where
  segments : ∃ mm, w'.mm child = some mm ∧ mm.mmapList.Perm oldmm.mmapList
  mapped : ∀ p, (mapping w'.st child p).isSome = (mapping w.st parent p).isSome
  own : ∀ p f, mapping w'.st child p = some f → f ∈ w.st.free ∧ w'.st.ref f = 1
  bytes : ∀ p f g, mapping w.st parent p = some f → mapping w'.st child p = some g →
    w'.st.data g = w.st.data f
  flags : ∀ p f, mapping w.st parent p = some f →
    (w'.st.pte child p).flags = (w.st.pte parent p).flags &&& PTE_USER

/-- What a `copy_mm` that fails leaves: no holder has changed, and no page is missing but those of tables that
`exit_mmap` could not reach. -/
structure Restored (w w' : World) (child : ℕ) : Prop where
  mm : w'.mm = w.mm
  held : ∀ x, w'.held x = w.held x
  free : w'.st.free ⊆ w.st.free
  lost : w'.st.free = w.st.free ∨ ∃ (v : World) (mm : Mm), v.mm child = some mm ∧ v.call (.exit child) = some w' ∧
    ¬ v.st.Closed child mm.mmapList

theorem Restored.refl (w : World) (child : ℕ) : Restored w w child :=
  ⟨rfl, fun _ => rfl, subset_rfl, .inl rfl⟩

/-- `setup_pgdir`: out of memory, or a new address space without segments. -/
theorem call_setupPgdir (h : Accounted total lost w) (hcall : w.call (.setupPgdir alloc a) = some w') :
    w.mm a = none ∧ (w' = w ∨ ∃ page, w'.mm a = some ⟨page, []⟩ ∧ w'.st.free ⊆ w.st.free ∧
      w'.st.pgdir = w.st.pgdir ∧ w'.st.data = w.st.data) := by
  rw [World.call] at hcall
  cases ha : w.mm a with
  | some mm =>
    rw [ha] at hcall
    cases hcall
  | none =>
    refine ⟨rfl, ?_⟩
    rw [ha] at hcall
    cases halloc : allocPage alloc w.st with
    | none =>
      rw [halloc] at hcall
      exact .inl (Option.some.inj hcall).symm
    | some r =>
      obtain ⟨page, s⟩ := r
      rw [halloc] at hcall
      obtain rfl := Option.some.inj hcall
      obtain ⟨-, rfl, -⟩ := allocPage_some halloc
      have hsame := noDirs_eq_self (s := { w.st with free := w.st.free.erase page }) (h.gone a ha)
      refine .inr ⟨page, Function.update_self _ _ _, ?_⟩
      dsimp only
      rw [hsame]
      exact ⟨Finset.erase_subset _ _, rfl, rfl⟩

/-- **`copy_mm` copies the address space, or leaves everything as it was.** -/
theorem copyMm_exact {P : World → Call → Prop} {w₀ : World} {oldmm : Mm} {child parent : ℕ} {mem : Bool}
    {memVma : Vma → Bool} {r : ℤ} (hs : Start total w₀) (hrun : ReflTransGen (Step P) w₀ w)
    (hparent : w.mm parent = some oldmm) (hchild : w.mm child = none)
    (hcopy : World.copyMm alloc mem memVma child parent w = some (r, w')) :
    Untouched w w' child ∧ (r = 0 ∧ Duplicated w w' child parent oldmm ∨
      r = -E_NO_MEM ∧ Restored w w' child) := by
  obtain ⟨lost, h, -⟩ := hs.accounted.run hrun
  have hne : parent ≠ child := by
    rintro rfl
    cases hparent.symm.trans hchild
  rw [World.copyMm, hparent] at hcopy
  dsimp only at hcopy
  split at hcopy
  swap
  · obtain ⟨rfl, rfl⟩ := Prod.mk.inj (Option.some.inj hcopy)
    exact ⟨Untouched.refl w child, .inr ⟨rfl, Restored.refl w child⟩⟩
  obtain ⟨w₁, hsetup, hcopy₁⟩ := Option.bind_eq_some_iff.mp hcopy
  obtain ⟨-, heq | ⟨page, hmm₁, hfree₁, hpgdir₁, hdata₁⟩⟩ := call_setupPgdir h hsetup
  · -- no page for `pgdir`
    rw [heq, hchild] at hcopy₁
    obtain ⟨rfl, rfl⟩ := Prod.mk.inj (Option.some.inj hcopy₁)
    exact ⟨Untouched.refl w child, .inr ⟨rfl, Restored.refl w child⟩⟩
  rw [hmm₁] at hcopy₁
  obtain ⟨⟨ret, w₂⟩, hdup, hcopy⟩ := Option.bind_eq_some_iff.mp hcopy₁
  dsimp only at hcopy
  obtain ⟨lost₁, h₁, -⟩ := h.call hsetup
  obtain ⟨hruns, hret, hsome⟩ := dupMmap_run hdup
  have hstep : ReflTransGen (Step (On child)) w w₁ := .single ⟨.setupPgdir alloc child, ⟨rfl, trivial⟩, hsetup⟩
  have hrun₂ := hstep.trans hruns
  by_cases hzero : ret = 0
  · -- everything is copied
    rw [if_pos hzero] at hcopy
    obtain ⟨rfl, rfl⟩ := Prod.mk.inj (Option.some.inj hcopy)
    subst hzero
    refine ⟨h.run_untouched hrun₂, .inl ⟨rfl, ?_⟩⟩
    have hpte₁ : ∀ b q, w₁.st.pte b q = w.st.pte b q := fun b q => by simp only [State.pte, State.table, hpgdir₁]
    have hmap₁ : ∀ b q, mapping w₁.st b q = mapping w.st b q := fun b q => mapping_congr (hpte₁ b q)
    have hseg := h.segments parent oldmm hparent
    have hempty : ∀ p, mapping w₁.st child p = none := by
      intro p
      rw [hmap₁, mapping_eq_none, pte_of_none (table_of_none (h.gone child hchild _))]
      decide
    have hapart : oldmm.mmapList.reverse.Pairwise fun v v' => Disjoint (pagesOf v) (pagesOf v') :=
      List.pairwise_reverse.mpr (hseg.disjoint.imp fun hvw => hvw.symm)
    obtain ⟨hc, mm', hmm', hperm⟩ := dupMmap_copied h₁ hne hapart (fun p _ => hempty p) hmm₁ hdup
    have hin : ∀ p f, mapping w.st parent p = some f → p ∈ mappedIn w₁.st parent oldmm.mmapList.reverse := by
      intro p f hf
      obtain ⟨v, hv, hpv⟩ := hseg.mapped p (by rw [hf]; exact Option.some_ne_none f)
      refine mem_mappedIn.mpr ⟨mem_allPages.mpr ⟨v, List.mem_reverse.mpr hv, hpv⟩, ?_⟩
      rw [hmap₁, hf]
      rfl
    have hnone : ∀ p, mapping w.st parent p = none → mapping w₂.st child p = none := by
      intro p hp
      have hnot : p ∉ mappedIn w₁.st parent oldmm.mmapList.reverse := fun hmem => by
        have hsome := (mem_mappedIn.mp hmem).2
        rw [hmap₁, hp] at hsome
        cases hsome
      rw [mapping_congr (hc.pte child p (notMem_image (Or.inr hnot))), hempty]
    have hfresh : ∀ p f, mapping w₂.st child p = some f → f ∈ w₁.st.free ∧ w₂.st.ref f = 1 ∧
        w₂.st.data f = w₁.st.data (w₁.st.pte parent p).ppn := by
      intro p f hf
      cases hp : mapping w.st parent p with
      | none =>
        rw [hnone p hp] at hf
        cases hf
      | some g =>
        obtain ⟨f', hf', hfree, -, href, hdata⟩ := hc.fresh p (hin p g hp)
        obtain rfl := Option.some.inj (hf'.symm.trans hf)
        exact ⟨hfree, href, hdata⟩
    refine ⟨⟨mm', hmm', ?_⟩, fun p => ?_, fun p f hf => ?_, fun p f g hf hg => ?_, fun p f hf => ?_⟩
    · rw [List.append_nil, List.reverse_reverse] at hperm
      exact hperm
    · cases hp : mapping w.st parent p with
      | none =>
        rw [hnone p hp]
      | some f =>
        obtain ⟨g, hg, -⟩ := hc.fresh p (hin p f hp)
        rw [hg]
        rfl
    · obtain ⟨hfree, href, -⟩ := hfresh p f hf
      exact ⟨hfree₁ hfree, href⟩
    · rw [(hfresh p g hg).2.2, hdata₁, hpte₁, (mapping_eq_some.mp hf).2]
    · rw [hc.perm p (hin p f hf), hpte₁]
  · -- the child is torn down again
    rw [if_neg hzero] at hcopy
    obtain ⟨w₃, hexit, hcopy⟩ := Option.bind_eq_some_iff.mp hcopy
    obtain ⟨rfl, rfl⟩ := Prod.mk.inj (Option.some.inj hcopy)
    obtain ⟨lost₂, h₂, hsub₂, htidy₂⟩ := h.run hrun₂
    obtain ⟨lost₃, h₃, hsub₃, htidy₃⟩ := h₂.call hexit
    have hun := (h.run_untouched hrun₂).trans (h₂.untouched hexit)
    have hgone : w₃.mm child = none := by
      obtain ⟨mm, -, hcall⟩ := Option.bind_eq_some_iff.mp hexit
      obtain ⟨t, -, rfl⟩ := Option.map_eq_some_iff.mp hcall
      exact Function.update_self _ _ _
    obtain ⟨hmm, hheld, hfree, hsame⟩ := h.no_trace h₃ hun hchild hgone (hsub₂.trans hsub₃)
    refine ⟨hun, .inr ⟨hret.resolve_left hzero, hmm, hheld, hfree, ?_⟩⟩
    by_cases hclosed : ∀ mm, w₂.mm child = some mm → w₂.st.Closed child mm.mmapList
    · exact .inl (hsame ((htidy₃ hclosed).trans (htidy₂ fun v c hc => hc.2)))
    · simp only [not_forall] at hclosed
      obtain ⟨mm, hmm₂, hnot⟩ := hclosed
      exact .inr ⟨w₂, mm, hmm₂, hexit, hnot⟩

/-- Ten free pages, and no process. -/
def tenPages : World where
  st := ⟨fun _ _ => none, fun _ => 0, fun _ _ => 0, Finset.Ico 10 20, []⟩
  mm := fun _ => none

theorem copyMm_exact_tenPages : ∃ w w' oldmm, ReflTransGen (Step fun _ _ => True) tenPages w ∧
    w.mm 0 = some oldmm ∧ World.copyMm firstFit true (fun _ => true) 1 0 w = some (0, w') ∧
    Untouched w w' 1 ∧ Duplicated w w' 1 0 oldmm := by
  have hstart : Start {f | f ∈ tenPages.st.free} tenPages :=
    ⟨fun _ => rfl, fun _ _ => rfl, fun _ => Iff.rfl, fun _ => le_rfl, fun _ _ => rfl⟩
  have hcalls : (onePageCalls.foldlM World.call tenPages).any (fun w =>
      (w.mm 0).isSome && (w.mm 1).isNone &&
        (World.copyMm firstFit true (fun _ => true) 1 0 w).any fun r => r.1 = 0) = true := by decide
  obtain ⟨w, hw, hrest⟩ := (Option.any_eq_true _ _).mp hcalls
  simp only [Bool.and_eq_true] at hrest
  obtain ⟨⟨hsome, hnone⟩, hcopy⟩ := hrest
  obtain ⟨oldmm, hmm⟩ := Option.isSome_iff_exists.mp hsome
  obtain ⟨⟨r, w'⟩, hcopy, hzero⟩ := (Option.any_eq_true _ _).mp hcopy
  obtain rfl : r = 0 := of_decide_eq_true hzero
  have hrun : ReflTransGen (Step fun _ _ => True) tenPages w := run_of_calls onePageCalls (fun _ _ => trivial) hw
  obtain ⟨hun, ⟨-, hdup⟩ | ⟨hr, -⟩⟩ := copyMm_exact hstart hrun hmm (Option.isNone_iff_eq_none.mp hnone) hcopy
  · exact ⟨w, w', oldmm, hrun, hmm, hcopy, hun, hdup⟩
  · exact absurd hr (by decide)

end Ucore.Paging
