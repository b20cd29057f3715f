import Mathlib.Logic.Relation
import Ucore.Lib.Transition
import Ucore.Paging.Ledger

/-!
# Where the pages of user memory are

A world is the pages and the address spaces of all processes.  Its calls are those of `load_icode`,
`copy_mm`, `do_execve` and `do_exit` on user memory, in any order: `setup_pgdir`, `mm_map`,
`pgdir_alloc_page`, the `copy_range` of `dup_mmap`, `unmap_range`, and `exit_mmap` with `put_pgdir`.

* `Booked.exit`: tearing an address space down, the tables that do not come back included.
* `pages_accounted`: in every run no page has two holders and no page in use is free.  If every
  `exit_mmap` finds its directories closed, no page is ever lost; a lost page never comes back.
-/

namespace Ucore.Paging

open Cow (NPTEENTRY PGSIZE PTE_V Perm Pte USERTOP Vma has)
open Holdings Relation Transition

variable {s s' : State} {a b i p q f root : ℕ} {total lost : Set ℕ} {roots : Roots} {vmas : List Vma}

/-! ### The end of an address space -/

/-- All walks of `exit_mmap` together give every directory back, and every table in it. -/
def State.Closed (s : State) (a : ℕ) (vmas : List Vma) : Prop :=
  ∀ i < USERDIRS, ∀ pd0, s.pgdir a i = some pd0 → pd0.Closed (walks vmas i)

/-- The assignment `mm->pgdir = pgdir` of a directory without user entries; and an address space without
`pgdir`. -/
def State.noDirs (s : State) (a : ℕ) : State := { s with pgdir := Function.update s.pgdir a fun _ => none }

theorem pgdir_noDirs_self (s : State) (a i : ℕ) : (s.noDirs a).pgdir a i = none := by
  simp only [State.noDirs, Function.update_self]

theorem noDirs_eq_self (h : ∀ i, s.pgdir a i = none) : s.noDirs a = s := by
  have hpgdir : Function.update s.pgdir a (fun _ => none) = s.pgdir :=
    Function.update_eq_self_iff.mpr (funext h).symm
  rw [State.noDirs, hpgdir]

/-- `exit_mmap` and `put_pgdir`, for the `pgdir` at page `root`. -/
def exitSpace (a root : ℕ) (mmapList : List Vma) (s : State) : Option State := do
  let s ← exitMmap a mmapList s
  return (freePage (.user root) s).noDirs a

/-- The address space of a holder. -/
def Holder.space : Holder → Option ℕ
  | .root a => some a
  | .node x => some x.space
  | .frame a _ => some a
  | .hand => none

theorem node_index_lt (hhigh : ∀ i, USERDIRS ≤ i → s.pgdir a i = none) {x : Node} (hx : x.space = a)
    (hf : s.node x = some f) : x.index < USERDIRS := by
  by_contra hge
  have hnone := hhigh x.index (Nat.le_of_not_lt hge)
  cases x with
  | dir b i =>
    obtain rfl : b = a := hx
    cases (node_dir_none hnone).symm.trans hf
  | table b r =>
    obtain rfl : b = a := hx
    have hr : pdx1 (r * NPTEENTRY) = r / NPDEENTRY := by
      simp only [pdx1, PDPAGES, NPDEENTRY, NPTEENTRY]
      omega
    rw [State.node, table_of_none (by rw [hr]; exact hnone)] at hf
    cases hf

/-- The other address spaces are as they were. -/
structure Spares (s s' : State) (a : ℕ) : Prop where
  mapping : ∀ b, b ≠ a → ∀ q, mapping s' b q = mapping s b q
  data : s'.data = s.data
  node : ∀ x : Node, x.space ≠ a → s'.node x = s.node x
  gone : ∀ i, s'.pgdir a i = none

theorem Spares.node_gone (h : Spares s s' a) {x : Node} (hx : x.space = a) : s'.node x = none := by
  cases x with
  | dir b i =>
    obtain rfl : b = a := hx
    exact node_dir_none (h.gone i)
  | table b r =>
    obtain rfl : b = a := hx
    rw [State.node, table_of_none (h.gone _)]
    rfl

theorem Spares.mapping_gone (h : Spares s s' a) (q : ℕ) : Paging.mapping s' a q = none := by
  rw [mapping_eq_none, pte_of_none (table_of_none (h.gone _))]
  decide

/-- A holder in another address space keeps its page. -/
theorem Spares.held (h : Spares s s' a) (roots : Roots) (x : Holder) :
    s'.held (Function.update roots a none) none x = if x.space = some a then none else s.held roots none x := by
  by_cases hx : x.space = some a
  · rw [if_pos hx]
    cases x with
    | root b =>
      obtain rfl := Option.some.inj hx
      exact Function.update_self _ _ _
    | node x => exact h.node_gone (Option.some.inj hx)
    | frame b q =>
      obtain rfl := Option.some.inj hx
      exact h.mapping_gone q
    | hand => rfl
  · rw [if_neg hx]
    cases x with
    | root b => exact Function.update_of_ne (fun hb => hx (congrArg some hb)) _ _
    | node x => exact h.node x fun hspace => hx (congrArg some hspace)
    | frame b q => exact h.mapping b (fun hb => hx (congrArg some hb)) q
    | hand => rfl

theorem spares_exit {s₁ s₂ : State} {P : Finset ℕ} (hu : Unmapped s s₁ a P) (hr : Releases s₁ s₂ a) (root : ℕ) :
    Spares s ((freePage (.user root) s₂).noDirs a) a := by
  have hdir : ∀ b, b ≠ a → ((freePage (.user root) s₂).noDirs a).pgdir b = s₁.pgdir b := fun b hb =>
    (Function.update_of_ne hb _ _).trans (hr.others b hb)
  have htab : ∀ b, b ≠ a → ∀ q, ((freePage (.user root) s₂).noDirs a).table b q = s₁.table b q := fun b hb q =>
    table_of_pgdir (congrFun (hdir b hb) _)
  refine ⟨fun b hb q => ?_, hr.data.trans hu.data, fun x hx => ?_, fun i => ?_⟩
  · rw [mapping_congr (pte_of_table (htab b hb q)), hu.mapping, if_neg fun hc => hb hc.1]
  · rw [← hu.tables.node x]
    cases x with
    | dir b i => exact congrArg (Option.map Dir.page) (congrFun (hdir b hx) i)
    | table b r => exact congrArg (Option.map Table.page) (htab b hx _)
  · exact pgdir_noDirs_self _ a i

/-- **The end of an address space.**  All its pages are free again, but for the tables and directories that
the walks leave out; these are lost. -/
theorem Booked.exit (h : Booked total roots lost s none) (hv : Segments s a vmas) (hroot : roots a = some root)
    (hhigh : ∀ i, USERDIRS ≤ i → s.pgdir a i = none) :
    ∃ s' lost', exitSpace a root vmas s = some s' ∧ Spares s s' a ∧
      Booked total (Function.update roots a none) lost' s' none ∧ lost ⊆ lost' ∧
      (s.Closed a vmas → lost' = lost) := by
  obtain ⟨s₁, s₂, log, fs, hrun, ht⟩ := exitMmap_spec h.counted hv
  have h₁ := h.unmapped ht.unmapped
  have hspares := spares_exit ht.unmapped ht.releases root
  have hheld := hspares.held roots
  have hexit : exitSpace a root vmas s = some ((freePage (.user root) s₂).noDirs a) := by
    rw [exitSpace, hrun]
    rfl
  have hfree : ∀ f, f ∈ ((freePage (.user root) s₂).noDirs a).free ↔
      f = root ∨ f ∈ s.free ∨ f ∈ log.map Released.page ∨ f ∈ fs := by
    intro f
    rw [← List.mem_append, ← ht.free]
    exact Finset.mem_insert
  have href : ((freePage (.user root) s₂).noDirs a).ref = Function.update s₂.ref root 0 := rfl
  generalize (freePage (.user root) s₂).noDirs a = s' at hspares hheld hexit hfree href
  -- what is left of the page tables
  obtain ⟨leak, hleak⟩ : ∃ leak : Set ℕ, ∀ f, f ∈ leak ↔
      (∃ x : Node, x.space = a ∧ s.node x = some f) ∧ f ∉ log.map Released.page := ⟨_, fun _ => Iff.rfl⟩
  have hgives : Gives (s.books roots none lost) (s'.books (Function.update roots a none) none (lost ∪ leak)) := by
    have hkeep : ∀ x f, s'.held (Function.update roots a none) none x = some f → s.held roots none x = some f := by
      intro x f hx
      rw [hheld] at hx
      split at hx
      · cases hx
      · exact hx
    have hgone : ∀ x f, s.held roots none x = some f → x.space = some a →
        ∃ y, s.held roots none y = some f ∧ s'.held (Function.update roots a none) none y ≠ some f := by
      intro x f hx hspace
      refine ⟨x, hx, ?_⟩
      rw [hheld, if_pos hspace]
      exact nofun
    refine ⟨hkeep, fun x f hx => ?_, fun f hf => ?_, fun f hf => ?_, fun f hf => (hfree f).mpr (.inr (.inl hf)),
      Set.subset_union_left, fun f hf hlost => ?_⟩
    · by_cases hspace : x.space = some a
      swap
      · refine .inr (.inr ?_)
        show s'.held (Function.update roots a none) none x = some f
        rw [hheld, if_neg hspace]
        exact hx
      cases x with
      | root b =>
        obtain rfl := Option.some.inj hspace
        exact .inl ((hfree f).mpr (.inl (Option.some.inj (hx.symm.trans hroot))))
      | node x =>
        by_cases hlog : f ∈ log.map Released.page
        · exact .inl ((hfree f).mpr (.inr (.inr (.inl hlog))))
        · exact .inr (.inl (.inr ((hleak f).mpr ⟨⟨x, Option.some.inj hspace, hx⟩, hlog⟩)))
      | frame b q =>
        obtain rfl := Option.some.inj hspace
        refine .inl ((hfree f).mpr (.inr (.inr (.inr ((ht.frames f).mpr ?_)))))
        have hq : q ∈ allPages vmas := by
          refine mem_allPages.mpr (hv.mapped q ?_)
          rw [show mapping s b q = some f from hx]
          exact nofun
        rw [h.mappingsOf_eq hx hq, h.refs.frame b q f hx]
        exact ⟨Finset.singleton_nonempty q, rfl⟩
      | hand => cases hspace
    · rcases (hfree f).mp hf with rfl | hf | hf | hf
      · exact .inr (hgone (.root a) f hroot rfl)
      · exact .inl hf
      · obtain ⟨x, hx, rfl⟩ := List.mem_map.mp hf
        obtain ⟨y, hy, huser⟩ := ht.node hx
        exact .inr (hgone (.node y) x.page hy (congrArg some huser.2))
      · obtain ⟨q, hq⟩ := ht.frame hf
        exact .inr (hgone (.frame a q) f hq rfl)
    · rcases hf with hf | hf
      · exact .inl hf
      · obtain ⟨⟨x, hspace, hx⟩, -⟩ := (hleak f).mp hf
        exact .inr (hgone (.node x) f hx (congrArg some hspace))
    · rcases hlost with hlost | hlost
      · exact .inr hlost
      · obtain ⟨⟨x, -, hx⟩, hlog⟩ := (hleak f).mp hlost
        rcases (hfree f).mp hf with rfl | hf | hf | hf
        · exact nomatch h.balanced.inj (.root a) (.node x) f hroot hx
        · exact .inl hf
        · exact absurd hf hlog
        · obtain ⟨q, hq⟩ := ht.frame hf
          exact nomatch h.balanced.inj (.frame a q) (.node x) f hq hx
  have hbal := hgives.balanced h.balanced
  have hzero : ∀ f ∈ s'.free, s'.ref f = 0 := by
    intro f hf
    rw [href]
    by_cases hfr : f = root
    · rw [hfr, Function.update_self]
    rw [Function.update_of_ne hfr]
    have hf₂ : f ∈ s₂.free := (ht.free f).mpr (by
      rw [List.mem_append]
      exact ((hfree f).mp hf).resolve_left hfr)
    rcases ht.releases.fresh f hf₂ with hf₁ | hf₁
    · rcases ht.releases.ref f with heq | ⟨-, heq⟩
      · rw [heq, h₁.refs.free f hf₁]
      · exact heq
    · exact hf₁
  have hold : ∀ f, s'.ref f = s₁.ref f ∨ f ∈ s'.free := by
    intro f
    by_cases hfr : f = root
    · exact .inr ((hfree f).mpr (.inl hfr))
    rw [href, Function.update_of_ne hfr]
    refine (ht.releases.ref f).imp_right fun hf => (hfree f).mpr (.inr ?_)
    rw [← List.mem_append]
    exact (ht.free f).mp hf.1
  refine ⟨s', lost ∪ leak, hexit, hspares, ⟨hbal, fun f => ?_, hzero, fun b q f hx => ?_⟩,
    Set.subset_union_left, fun hclosed => ?_⟩
  · rcases hold f with hf | hf
    · rw [hf]
      exact h₁.refs.nonneg f
    · rw [hzero f hf]
  · have hb : b ≠ a := by
      rintro rfl
      rw [hspares.mapping_gone] at hx
      cases hx
    rcases hold f with hf | hf
    · rw [hf]
      refine h₁.refs.frame b q f ?_
      rw [ht.unmapped.mapping, if_neg fun hc => hb hc.1, ← hspares.mapping b hb]
      exact hx
    · exact absurd hf (hbal.free (.frame b q) f hx)
  · refine Set.union_eq_self_of_subset_right fun f hf => ?_
    obtain ⟨⟨x, hspace, hx⟩, hlog⟩ := (hleak f).mp hf
    have hall := (h₁.apart.returned_iff a vmas).mpr (ht.unmapped.tables.closed_iff.mpr hclosed) x
      ⟨node_index_lt hhigh hspace hx, hspace⟩ f ((ht.unmapped.tables.node x).trans hx)
    rw [← ht.tables] at hall
    exact absurd hall hlog

/-! ### Worlds and their calls -/

deriving instance DecidableEq for Vma

/-- The part of an `mm_struct` that says where its pages are: the page of `pgdir`, and the segments. -/
structure Mm where
  pgdir : ℕ
  mmapList : List Vma

/-- All pages, and the address spaces of all processes. -/
structure World where
  st : State
  mm : ℕ → Option Mm

def World.pgdirs (w : World) : Roots := fun a => (w.mm a).map Mm.pgdir

/-- Who holds what. -/
def World.held (w : World) : Holder → Option ℕ := w.st.held w.pgdirs none

/-- `insert_vma_struct`: the list stays in the order of the start addresses. -/
def insertVmaStruct (mmapList : List Vma) (vma : Vma) : List Vma :=
  mmapList.takeWhile (fun prev => !(vma.vmStart < prev.vmStart)) ++
    vma :: mmapList.dropWhile (fun prev => !(vma.vmStart < prev.vmStart))

/-- The calls on user memory. -/
inductive Call
  | setupPgdir (alloc : Allocator) (a : ℕ)
  | mmMap (a : ℕ) (vma : Vma)
  | pgdirAllocPage (alloc : Allocator) (a p : ℕ) (perm : Perm)
  | copyRange (alloc : Allocator) (dst src : ℕ) (vma : Vma)
  | unmapRange (a start stop : ℕ)
  | exit (a : ℕ)

/-- What a call does.  `none` stands for a failed assertion, and for a call that no caller makes: pages are
allocated and copied into segments of the address space only. -/
def World.call (w : World) : Call → Option World
  | .setupPgdir alloc a =>
    match w.mm a with
    | some _ => none
    | none =>
      match allocPage alloc w.st with
      | none => some w
      | some (page, s) => some ⟨s.noDirs a, Function.update w.mm a (some ⟨page, []⟩)⟩
  | .mmMap a vma => do
    let mm ← w.mm a
    if UserRange vma.vmStart vma.vmEnd ∧
        ∀ v ∈ mm.mmapList, vma.vmEnd ≤ v.vmStart ∨ v.vmEnd ≤ vma.vmStart then
      return ⟨w.st, Function.update w.mm a (some ⟨mm.pgdir, insertVmaStruct mm.mmapList vma⟩)⟩
    else none
  | .pgdirAllocPage alloc a p perm => do
    let mm ← w.mm a
    if p ∈ allPages mm.mmapList then
      (pgdirAllocPage alloc a p perm w.st).map fun r => ⟨r.2, w.mm⟩
    else none
  | .copyRange alloc dst src vma => do
    let mm ← w.mm dst
    if vma ∈ mm.mmapList then
      (copyRange alloc dst src vma.vmStart vma.vmEnd w.st).map fun r => ⟨r.2, w.mm⟩
    else none
  | .unmapRange a start stop => (unmapRange a start stop w.st).map fun s => ⟨s, w.mm⟩
  | .exit a => do
    let mm ← w.mm a
    (exitSpace a mm.pgdir mm.mmapList w.st).map fun s => ⟨s, Function.update w.mm a none⟩

/-- One call that `P` admits. -/
def Step (P : World → Call → Prop) (w w' : World) : Prop := ∃ c, P w c ∧ w.call c = some w'

/-- An address space is torn down only when its segments reach all its tables. -/
def Tidy (w : World) : Call → Prop
  | .exit a => ∀ mm, w.mm a = some mm → w.st.Closed a mm.mmapList
  | _ => True

/-- No process has user memory; the pages `total` are free. -/
structure Start (total : Set ℕ) (w : World) : Prop where
  mm : ∀ a, w.mm a = none
  pgdir : ∀ a i, w.st.pgdir a i = none
  free : ∀ f, f ∈ w.st.free ↔ f ∈ total
  ref : ∀ f, 0 ≤ w.st.ref f
  zero : ∀ f ∈ w.st.free, w.st.ref f = 0

/-- The invariant of all runs. -/
structure Accounted (total lost : Set ℕ) (w : World) : Prop where
  booked : Booked total w.pgdirs lost w.st none
  segments : ∀ a mm, w.mm a = some mm → Segments w.st a mm.mmapList
  high : ∀ a i, USERDIRS ≤ i → w.st.pgdir a i = none
  gone : ∀ a, w.mm a = none → ∀ i, w.st.pgdir a i = none

variable {w w' : World} {mm : Mm} {P : World → Call → Prop}

theorem Start.accounted (h : Start total w) : Accounted total ∅ w := by
  have hnone : ∀ a p, mapping w.st a p = none := by
    intro a p
    rw [mapping_eq_none, pte_of_none (table_of_none (h.pgdir a _))]
    decide
  have hheld : ∀ x, w.st.held w.pgdirs none x = none := by
    intro x
    cases x with
    | root a =>
      show (w.mm a).map Mm.pgdir = none
      rw [h.mm]
      rfl
    | node x =>
      cases x with
      | dir a i => exact node_dir_none (h.pgdir a i)
      | table a r => exact congrArg (Option.map Table.page) (table_of_none (h.pgdir a _))
    | frame a p => exact hnone a p
    | hand => rfl
  have hnot : ∀ x f, (w.st.books w.pgdirs none ∅).page x ≠ some f := by
    intro x f hx
    cases (hheld x).symm.trans hx
  refine ⟨⟨⟨fun x y f hx => absurd hx (hnot x f), fun x f hx => absurd hx (hnot x f),
    fun x f hx => absurd hx (hnot x f), fun f _ => Set.notMem_empty f, fun f => ?_⟩, h.ref, h.zero,
    fun a p f hx => ?_⟩, fun a mm hmm => ?_, fun a i _ => h.pgdir a i, fun a _ i => h.pgdir a i⟩
  · rw [← h.free]
    refine ⟨Or.inl, ?_⟩
    rintro (hf | hf | ⟨x, hx⟩)
    · exact hf
    · exact absurd hf (Set.notMem_empty f)
    · exact absurd hx (hnot x f)
  · rw [hnone] at hx
    cases hx
  · rw [h.mm] at hmm
    cases hmm

/-! ### One call -/

/-- A call on pages of segments of one address space. -/
theorem Accounted.touches (h : Accounted total lost w) (ha : w.mm a = some mm)
    (hbooked : Booked total w.pgdirs lost s' none) {Q : Finset ℕ} (ht : Touches w.st s' a Q)
    (hQ : Q ⊆ allPages mm.mmapList) : Accounted total lost ⟨s', w.mm⟩ := by
  have hseg := h.segments a mm ha
  refine ⟨hbooked, fun b m hb => ?_, fun b i hi => ?_, fun b hb i => ?_⟩
  · obtain ⟨hrange, hapart, hmapped⟩ := h.segments b m hb
    refine ⟨hrange, hapart, fun p hp => ?_⟩
    by_cases hbp : b = a ∧ p ∈ Q
    · obtain ⟨rfl, hp⟩ := hbp
      obtain rfl := Option.some.inj (ha.symm.trans hb)
      exact mem_allPages.mp (hQ hp)
    · refine hmapped p ?_
      rwa [← ht.mapping b p fun hba hp => hbp ⟨hba, hp⟩]
  · refine ht.dir b i (fun _ p hp hpi => ?_) (h.high b i hi)
    obtain ⟨v, hv, hpv⟩ := mem_allPages.mp (hQ hp)
    obtain ⟨-, -, -, htop⟩ := hseg.range v hv
    have hlt := (Finset.mem_Ico.mp hpv).2
    simp only [← hpi, USERDIRS, pdx1, PDPAGES, NPDEENTRY, NPTEENTRY, PGSIZE, USERTOP] at *
    omega
  · refine ht.dir b i (fun hba => ?_) (h.gone b hb i)
    rw [hba, ha] at hb
    cases hb

/-- The page in hand becomes a `pgdir`. -/
theorem Booked.rootPage {page : ℕ} (h : Booked total roots lost s (some page)) (hnone : roots a = none) :
    Booked total (Function.update roots a (some page)) lost s none := by
  have hbooks : s.held (Function.update roots a (some page)) none =
      Function.update (Function.update (s.held roots (some page)) .hand none) (.root a) (some page) := by
    funext x
    by_cases hx : x = .root a
    · rw [hx, Function.update_self]
      exact Function.update_self _ _ _
    rw [Function.update_of_ne hx]
    cases x with
    | hand =>
      rw [Function.update_self]
      rfl
    | root b =>
      rw [Function.update_of_ne fun h : Holder.root b = .hand => nomatch h]
      exact Function.update_of_ne (fun hb => hx (congrArg Holder.root hb)) _ _
    | node x =>
      rw [Function.update_of_ne fun h : Holder.node x = .hand => nomatch h]
      rfl
    | frame b q =>
      rw [Function.update_of_ne fun h : Holder.frame b q = .hand => nomatch h]
      rfl
  have hhand : (s.books roots (some page) lost).page .hand = some page := rfl
  have hroot : (s.books roots (some page) lost).page (.root a) = none := hnone
  refine ⟨?_, h.refs⟩
  rw [State.books, hbooks]
  exact h.balanced.move hhand hroot

theorem perm_insertVmaStruct (mmapList : List Vma) (vma : Vma) :
    (insertVmaStruct mmapList vma).Perm (vma :: mmapList) := by
  rw [insertVmaStruct]
  refine List.perm_middle.trans (List.Perm.cons vma ?_)
  rw [List.takeWhile_append_dropWhile]

theorem Segments.insert (h : Segments s a vmas) {vma : Vma} (hr : UserRange vma.vmStart vma.vmEnd)
    (hapart : ∀ v ∈ vmas, vma.vmEnd ≤ v.vmStart ∨ v.vmEnd ≤ vma.vmStart) :
    Segments s a (insertVmaStruct vmas vma) := by
  have hperm := perm_insertVmaStruct vmas vma
  refine ⟨fun v hv => ?_, ?_, fun p hp => ?_⟩
  · rcases List.mem_cons.mp (hperm.mem_iff.mp hv) with rfl | hv
    · exact hr
    · exact h.range v hv
  · refine (hperm.pairwise_iff fun {v w} hvw => Or.symm hvw).mpr ?_
    exact List.pairwise_cons.mpr ⟨hapart, h.apart⟩
  · obtain ⟨v, hv, hpv⟩ := h.mapped p hp
    exact ⟨v, hperm.mem_iff.mpr (List.mem_cons_of_mem vma hv), hpv⟩

theorem World.pgdirs_update (w : World) (s : State) (a : ℕ) (o : Option Mm) :
    World.pgdirs ⟨s, Function.update w.mm a o⟩ = Function.update w.pgdirs a (o.map Mm.pgdir) := by
  funext b
  by_cases hb : b = a
  · simp only [hb, World.pgdirs, Function.update_self]
  · simp only [World.pgdirs, Function.update_of_ne hb]

/-- **One call.** -/
theorem Accounted.call (h : Accounted total lost w) {c : Call} (hcall : w.call c = some w') :
    ∃ lost', Accounted total lost' w' ∧ lost ⊆ lost' ∧ (Tidy w c → lost' = lost) := by
  cases c with
  | setupPgdir alloc a =>
    rw [World.call] at hcall
    cases ha : w.mm a with
    | some mm =>
      rw [ha] at hcall
      cases hcall
    | none =>
      rw [ha] at hcall
      cases halloc : allocPage alloc w.st with
      | none =>
        rw [halloc] at hcall
        obtain rfl := Option.some.inj hcall
        exact ⟨lost, h, subset_rfl, fun _ => rfl⟩
      | some r =>
        obtain ⟨page, s⟩ := r
        rw [halloc] at hcall
        obtain rfl := Option.some.inj hcall
        obtain ⟨hb, hpgdir, -, -⟩ := h.booked.allocPage halloc
        have hgone : ∀ i, s.pgdir a i = none := fun i => by rw [hpgdir, h.gone a ha i]
        have hmap : ∀ b p, mapping s b p = mapping w.st b p := fun b p =>
          mapping_congr (pte_of_table (table_of_pgdir (by rw [hpgdir])))
        have hroot : w.pgdirs a = none := by
          rw [World.pgdirs, ha]
          rfl
        refine ⟨lost, ⟨?_, fun b m hm => ?_, fun b i hi => ?_, fun b hm i => ?_⟩, subset_rfl, fun _ => rfl⟩
        · rw [noDirs_eq_self hgone, World.pgdirs_update]
          exact hb.rootPage hroot
        · dsimp only at hm ⊢
          rw [noDirs_eq_self hgone]
          by_cases hba : b = a
          · subst hba
            rw [Function.update_self] at hm
            obtain rfl := Option.some.inj hm
            refine ⟨nofun, List.Pairwise.nil, fun p hp => absurd ?_ hp⟩
            rw [mapping_eq_none, pte_of_none (table_of_none (hgone _))]
            decide
          · rw [Function.update_of_ne hba] at hm
            obtain ⟨hrange, hapart, hmapped⟩ := h.segments b m hm
            exact ⟨hrange, hapart, fun p hp => hmapped p (by rwa [← hmap])⟩
        · dsimp only
          rw [noDirs_eq_self hgone, hpgdir]
          exact h.high b i hi
        · dsimp only at hm ⊢
          rw [noDirs_eq_self hgone]
          by_cases hba : b = a
          · rw [hba]
            exact hgone i
          · rw [Function.update_of_ne hba] at hm
            rw [hpgdir]
            exact h.gone b hm i
  | mmMap a vma =>
    obtain ⟨mm, ha, hcall⟩ := Option.bind_eq_some_iff.mp hcall
    split at hcall
    swap
    · cases hcall
    rename_i hguard
    obtain rfl := Option.some.inj hcall
    have hmm : ∀ b, b ≠ a → Function.update w.mm a (some ⟨mm.pgdir, insertVmaStruct mm.mmapList vma⟩) b = w.mm b :=
      fun b hb => Function.update_of_ne hb _ _
    refine ⟨lost, ⟨?_, fun b m hm => ?_, h.high, fun b hm i => ?_⟩, subset_rfl, fun _ => rfl⟩
    · have hroot : w.pgdirs a = some mm.pgdir := by
        rw [World.pgdirs, ha]
        rfl
      have hsame := h.booked
      rw [World.pgdirs_update, Option.map_some, ← hroot, Function.update_eq_self]
      exact hsame
    · by_cases hba : b = a
      · subst hba
        dsimp only at hm
        rw [Function.update_self] at hm
        obtain rfl := Option.some.inj hm
        exact (h.segments b mm ha).insert hguard.1 hguard.2
      · dsimp only at hm
        rw [hmm b hba] at hm
        exact h.segments b m hm
    · refine h.gone b ?_ i
      have hba : b ≠ a := by
        rintro rfl
        dsimp only at hm
        rw [Function.update_self] at hm
        cases hm
      exact (hmm b hba).symm.trans hm
  | pgdirAllocPage alloc a p perm =>
    obtain ⟨mm, ha, hcall⟩ := Option.bind_eq_some_iff.mp hcall
    split at hcall
    swap
    · cases hcall
    rename_i hp
    obtain ⟨r, hrun, rfl⟩ := Option.map_eq_some_iff.mp hcall
    obtain ⟨o, s', hrun', hbooked, htouch⟩ := h.booked.pgdirAllocPage alloc a p perm
    obtain rfl := Option.some.inj (hrun'.symm.trans hrun)
    exact ⟨lost, h.touches ha hbooked htouch (Finset.singleton_subset_iff.mpr hp), subset_rfl, fun _ => rfl⟩
  | copyRange alloc dst src vma =>
    obtain ⟨mm, ha, hcall⟩ := Option.bind_eq_some_iff.mp hcall
    split at hcall
    swap
    · cases hcall
    rename_i hvma
    obtain ⟨⟨r, s'⟩, hrun, rfl⟩ := Option.map_eq_some_iff.mp hcall
    obtain ⟨hbooked, htouch⟩ := h.booked.copyRange hrun
    exact ⟨lost, h.touches ha hbooked htouch fun p hp => mem_allPages.mpr ⟨vma, hvma, hp⟩, subset_rfl,
      fun _ => rfl⟩
  | unmapRange a start stop =>
    obtain ⟨s', hrun, rfl⟩ := Option.map_eq_some_iff.mp hcall
    obtain ⟨hbooked, hu⟩ := h.booked.unmapRange hrun
    have hdir : ∀ b i, w.st.pgdir b i = none → s'.pgdir b i = none := fun b i hnone =>
      Option.map_eq_none_iff.mp ((hu.tables.dir b i).trans (congrArg (Option.map Dir.page) hnone))
    refine ⟨lost, ⟨hbooked, fun b m hm => ?_, fun b i hi => hdir b i (h.high b i hi),
      fun b hm i => hdir b i (h.gone b hm i)⟩, subset_rfl, fun _ => rfl⟩
    obtain ⟨hrange, hapart, hmapped⟩ := h.segments b m hm
    refine ⟨hrange, hapart, fun p hp => ?_⟩
    obtain ⟨f, hf⟩ := Option.ne_none_iff_exists'.mp hp
    refine hmapped p ?_
    rw [hu.mapping_some hf]
    exact nofun
  | exit a =>
    obtain ⟨mm, ha, hcall⟩ := Option.bind_eq_some_iff.mp hcall
    obtain ⟨s', hrun, rfl⟩ := Option.map_eq_some_iff.mp hcall
    have hroot : w.pgdirs a = some mm.pgdir := by
      rw [World.pgdirs, ha]
      rfl
    obtain ⟨t, lost', hexit, hspares, hbooked, hsub, htidy⟩ := h.booked.exit (h.segments a mm ha) hroot (h.high a)
    obtain rfl := Option.some.inj (hexit.symm.trans hrun)
    have hmm : ∀ b, b ≠ a → Function.update w.mm a none b = w.mm b := fun b hb => Function.update_of_ne hb _ _
    have hdir : ∀ b i, w.st.pgdir b i = none → t.pgdir b i = none := by
      intro b i hnone
      by_cases hba : b = a
      · rw [hba]
        exact hspares.gone i
      · exact Option.map_eq_none_iff.mp ((hspares.node (.dir b i) hba).trans (node_dir_none hnone))
    refine ⟨lost', ⟨?_, fun b m hm => ?_, fun b i hi => hdir b i (h.high b i hi), fun b hm i => ?_⟩, hsub,
      fun htidy' => htidy (htidy' mm ha)⟩
    · rw [World.pgdirs_update]
      exact hbooked
    · have hba : b ≠ a := by
        rintro rfl
        dsimp only at hm
        rw [Function.update_self] at hm
        cases hm
      obtain ⟨hrange, hapart, hmapped⟩ := h.segments b m ((hmm b hba).symm.trans hm)
      exact ⟨hrange, hapart, fun p hp => hmapped p (by rwa [← hspares.mapping b hba])⟩
    · by_cases hba : b = a
      · rw [hba]
        exact hspares.gone i
      · exact hdir b i (h.gone b ((hmm b hba).symm.trans hm) i)

/-! ### Runs -/

theorem Accounted.run (h : Accounted total lost w) (hrun : ReflTransGen (Step P) w w') :
    ∃ lost', Accounted total lost' w' ∧ lost ⊆ lost' ∧ ((∀ v c, P v c → Tidy v c) → lost' = lost) := by
  induction hrun with
  | refl => exact ⟨lost, h, subset_rfl, fun _ => rfl⟩
  | tail _ hstep ih =>
    obtain ⟨lost₁, h₁, hsub₁, htidy₁⟩ := ih
    obtain ⟨c, hc, hcall⟩ := hstep
    obtain ⟨lost₂, h₂, hsub₂, htidy₂⟩ := h₁.call hcall
    exact ⟨lost₂, h₂, hsub₁.trans hsub₂, fun htidy => (htidy₂ (htidy _ c hc)).trans (htidy₁ htidy)⟩

/-- Without address spaces no page is held. -/
theorem Accounted.held_eq_none (h : Accounted total lost w) (hmm : ∀ a, w.mm a = none) (x : Holder) :
    w.held x = none := by
  have hgone := fun a => h.gone a (hmm a)
  cases x with
  | root a => exact congrArg (Option.map Mm.pgdir) (hmm a)
  | node x =>
    cases x with
    | dir a i => exact node_dir_none (hgone a i)
    | table a r => exact congrArg (Option.map Table.page) (table_of_none (hgone a _))
  | frame a p =>
    refine mapping_eq_none.mpr ?_
    rw [pte_of_none (table_of_none (hgone a _))]
    decide
  | hand => rfl

/-- **Every page is accounted for.**  In every run a page has one holder at most, and no page in use is
free.  If each address space is torn down with all its directories closed, every page is free or in use, and
all are free when no address space is left.  A page that is neither has no further use in any run from
there.  And an address space can always be torn down. -/
theorem pages_accounted {w₀ : World} (hs : Start total w₀) (hrun : ReflTransGen (Step P) w₀ w) :
    (∀ x y f, w.held x = some f → w.held y = some f → x = y) ∧
      (∀ x f, w.held x = some f → f ∈ total ∧ f ∉ w.st.free) ∧
      ((∀ v c, P v c → Tidy v c) → (∀ f ∈ total, f ∈ w.st.free ∨ ∃ x, w.held x = some f) ∧
        ((∀ a, w.mm a = none) → ∀ f, f ∈ w.st.free ↔ f ∈ total)) ∧
      (∀ f ∈ total, f ∉ w.st.free → (∀ x, w.held x ≠ some f) → ∀ w', ReflTransGen (Step P) w w' →
        f ∉ w'.st.free ∧ ∀ x, w'.held x ≠ some f) ∧
      ∀ a mm, w.mm a = some mm → ∃ w', w.call (.exit a) = some w' := by
  obtain ⟨lost, h, -, htidy⟩ := hs.accounted.run hrun
  have hb := h.booked.balanced
  refine ⟨hb.inj, fun x f hx => ⟨(hb.total f).mpr (.inr (.inr ⟨x, hx⟩)), hb.free x f hx⟩, fun hP => ?_,
    fun f hf hfree hheld w' hrun' => ?_, fun a mm ha => ?_⟩
  · have hall : ∀ f ∈ total, f ∈ w.st.free ∨ ∃ x, w.held x = some f := by
      intro f hf
      refine ((hb.total f).mp hf).imp_right fun hf => hf.resolve_left ?_
      show f ∉ lost
      rw [htidy hP]
      exact Set.notMem_empty f
    refine ⟨hall, fun hmm f => ⟨fun hf => (hb.total f).mpr (.inl hf), fun hf => ?_⟩⟩
    refine (hall f hf).resolve_right ?_
    rintro ⟨x, hx⟩
    cases (h.held_eq_none hmm x).symm.trans hx
  · obtain ⟨lost', h', hsub, -⟩ := h.run hrun'
    have hlost : f ∈ lost := by
      rcases (hb.total f).mp hf with hf | hf | ⟨x, hx⟩
      · exact absurd hf hfree
      · exact hf
      · exact absurd hx (hheld x)
    exact ⟨fun hf => h'.booked.balanced.apart f hf (hsub hlost),
      fun x hx => h'.booked.balanced.lost x f hx (hsub hlost)⟩
  · have hroot : w.pgdirs a = some mm.pgdir := by
      rw [World.pgdirs, ha]
      rfl
    obtain ⟨s', lost', hexit, -⟩ := h.booked.exit (h.segments a mm ha) hroot (h.high a)
    refine ⟨⟨s', Function.update w.mm a none⟩, ?_⟩
    rw [World.call, ha]
    exact congrArg (Option.map _) hexit

theorem run_of_calls (calls : List Call) (hP : ∀ v c, P v c) (h : calls.foldlM World.call w = some w') :
    ReflTransGen (Step P) w w' := by
  induction calls generalizing w with
  | nil =>
    obtain rfl := Option.some.inj h
    exact .refl
  | cons c calls ih =>
    obtain ⟨v, hcall, h⟩ := Option.bind_eq_some_iff.mp h
    exact .head ⟨c, hP w c, hcall⟩ (ih h)

/-- Five free pages, and no process. -/
def fivePages : World where
  st := ⟨fun _ _ => none, fun _ => 0, fun _ _ => 0, {10, 11, 12, 13, 14}, []⟩
  mm := fun _ => none

/-- A process with one page. -/
def onePageCalls : List Call :=
  [.setupPgdir firstFit 0, .mmMap 0 ⟨0x200000, 0x201000, Cow.VM_READ⟩, .pgdirAllocPage firstFit 0 512 Cow.PTE_U]

theorem pages_accounted_onePage : ∃ w, ReflTransGen (Step fun _ _ => True) fivePages w ∧ (w.mm 0).isSome ∧
    (∀ x y f, w.held x = some f → w.held y = some f → x = y) ∧
      (∀ x f, w.held x = some f → f ∈ {f | f ∈ fivePages.st.free} ∧ f ∉ w.st.free) := by
  have hstart : Start {f | f ∈ fivePages.st.free} fivePages :=
    ⟨fun _ => rfl, fun _ _ => rfl, fun _ => Iff.rfl, fun _ => le_rfl, fun _ _ => rfl⟩
  have hcalls : ((onePageCalls.foldlM World.call fivePages).bind fun w => w.mm 0).isSome = true := by decide
  obtain ⟨mm, hmm⟩ := Option.isSome_iff_exists.mp hcalls
  obtain ⟨w, hw, hmm⟩ := Option.bind_eq_some_iff.mp hmm
  have hrun : ReflTransGen (Step fun _ _ => True) fivePages w := run_of_calls onePageCalls (fun _ _ => trivial) hw
  obtain ⟨hone, hfree, -⟩ := pages_accounted hstart hrun
  exact ⟨w, hrun, hmm ▸ rfl, hone, hfree⟩

end Ucore.Paging
