import Ucore.Lib.Holdings
import Ucore.Paging.Teardown

/-!
# Who holds which page

A page in use is the `pgdir` of an address space, a directory or a table below it, a frame, or it has just
come from the allocator and is in no table yet.  `books` collects these holders and the free pages, and
`Booked` says that they are balanced and that the counters fit.

Every function of `pmm.c` that changes page tables keeps `Booked`: `get_pte` takes pages for tables,
`page_remove_pte` and `unmap_range` give frames up, `page_insert` puts a page that the caller has into a
table.  `Touches` says which part of an address space such a call reaches.
-/

namespace Ucore.Paging

open Cow (E_NO_MEM NPTEENTRY PGSIZE PTE_USER PTE_V Perm Pte USERTOP Vma has has_V_pteCreate nextRegion pteCreate)
open Holdings

variable {alloc : Allocator} {s s' s'' : State} {a b i p q f page start stop : ℕ} {perm : Perm} {P Q : Finset ℕ}

deriving instance DecidableEq for Node

/-- What a page in use is used for. -/
inductive Holder
  | root (a : ℕ)
  | node (x : Node)
  | frame (a p : ℕ)
  /-- from the allocator, and in no table yet -/
  | hand
  deriving DecidableEq

/-- The pages of the `pgdir` of all address spaces. -/
abbrev Roots := ℕ → Option ℕ

/-- The page of a holder. -/
def State.held (s : State) (roots : Roots) (hand : Option ℕ) : Holder → Option ℕ
  | .root a => roots a
  | .node x => s.node x
  | .frame a p => mapping s a p
  | .hand => hand

/-- The books of a state. -/
def State.books (s : State) (roots : Roots) (hand : Option ℕ) (lost : Set ℕ) : Books Holder ℕ :=
  ⟨s.held roots hand, ↑s.free, lost⟩

/-- The counters: no free page has references, and a frame has one. -/
structure Refs (s : State) : Prop where
  nonneg : ∀ f, 0 ≤ s.ref f
  free : ∀ f ∈ s.free, s.ref f = 0
  frame : ∀ a p f, mapping s a p = some f → s.ref f = 1

/-- The pages `total` are accounted for; `hand` is the page between the allocator and a table. -/
structure Booked (total : Set ℕ) (roots : Roots) (lost : Set ℕ) (s : State) (hand : Option ℕ) : Prop where
  balanced : (s.books roots hand lost).Balanced total
  refs : Refs s

variable {total lost : Set ℕ} {roots : Roots} {hand : Option ℕ}

/-- The call changes nothing but mappings of the pages `P` of `a` and the tables above these. -/
structure Touches (s s' : State) (a : ℕ) (P : Finset ℕ) : Prop where
  mapping : ∀ b q, (b = a → q ∉ P) → mapping s' b q = mapping s b q
  data : ∀ b q f, (b = a → q ∉ P) → Paging.mapping s b q = some f → s'.data f = s.data f
  node : ∀ x : Node, x.space ≠ a → s'.node x = s.node x
  dir : ∀ b i, (b = a → ∀ p ∈ P, pdx1 p ≠ i) → s.pgdir b i = none → s'.pgdir b i = none

theorem Touches.refl (s : State) (a : ℕ) (P : Finset ℕ) : Touches s s a P :=
  ⟨fun _ _ _ => rfl, fun _ _ _ _ _ => rfl, fun _ _ => rfl, fun _ _ _ h => h⟩

theorem Touches.trans (h₁ : Touches s s' a P) (h₂ : Touches s' s'' a P) : Touches s s'' a P := by
  refine ⟨fun b q hq => (h₂.mapping b q hq).trans (h₁.mapping b q hq), fun b q f hq hx => ?_,
    fun x hx => (h₂.node x hx).trans (h₁.node x hx), fun b i hi hnone => h₂.dir b i hi (h₁.dir b i hi hnone)⟩
  exact (h₂.data b q f hq ((h₁.mapping b q hq).trans hx)).trans (h₁.data b q f hq hx)

theorem Touches.mono (h : Touches s s' a P) (hPQ : P ⊆ Q) : Touches s s' a Q :=
  ⟨fun b q hq => h.mapping b q fun hb hp => hq hb (hPQ hp),
    fun b q f hq => h.data b q f fun hb hp => hq hb (hPQ hp), h.node,
    fun b i hi => h.dir b i fun hb p hp => hi hb p (hPQ hp)⟩

theorem node_of_pgdir {x : Node} (h : s'.pgdir x.space = s.pgdir x.space) : s'.node x = s.node x := by
  cases x with
  | dir b i => exact congrArg (Option.map Dir.page) (congrFun h i)
  | table b r => exact congrArg (Option.map Table.page) (table_of_pgdir (congrFun h _))

/-- Only the page tables and the frames count. -/
theorem Touches.of_pgdir (h : s'.pgdir = s.pgdir)
    (hdata : ∀ b q f, Paging.mapping s b q = some f → s'.data f = s.data f) (a : ℕ) (P : Finset ℕ) :
    Touches s s' a P := by
  have hpte : ∀ b q, s'.pte b q = s.pte b q := fun b q => by simp only [State.pte, State.table, h]
  exact ⟨fun b q _ => mapping_congr (hpte b q), fun b q f _ => hdata b q f,
    fun x _ => node_of_pgdir (congrFun h _), fun b i _ hnone => by rw [h, hnone]⟩

/-! ### Frames and counters -/

theorem Booked.node_inj (h : Booked total roots lost s hand) {x y : Node} (hx : s.node x = some f)
    (hy : s.node y = some f) : x = y :=
  Holder.node.inj (h.balanced.inj (.node x) (.node y) f hx hy)

theorem Booked.apart (h : Booked total roots lost s hand) : Apart s :=
  ⟨fun _ _ _ hx hy => h.node_inj hx hy, fun x f hx => h.balanced.free (.node x) f hx,
    fun x f b p hx hp => nomatch h.balanced.inj (.node x) (.frame b p) f hx hp⟩

/-- A frame has one page. -/
theorem Booked.mappingsOf_eq (h : Booked total roots lost s hand) (hx : mapping s a p = some f) (hp : p ∈ P) :
    mappingsOf s a P f = {p} := by
  ext q
  rw [mem_mappingsOf, Finset.mem_singleton]
  constructor
  · rintro ⟨-, hq⟩
    have heq := h.balanced.inj (.frame a q) (.frame a p) f hq hx
    injection heq
  · rintro rfl
    exact ⟨hp, hx⟩

theorem Booked.counted (h : Booked total roots lost s hand) : Counted s := by
  refine ⟨fun a P f => ?_, h.refs.free⟩
  by_cases hne : (mappingsOf s a P f).Nonempty
  · obtain ⟨p, hp⟩ := hne
    obtain ⟨hmem, hx⟩ := mem_mappingsOf.mp hp
    rw [h.mappingsOf_eq hx hmem, Finset.card_singleton, h.refs.frame a p f hx]
    rfl
  · rw [Finset.not_nonempty_iff_eq_empty.mp hne, Finset.card_empty]
    exact h.refs.nonneg f

/-- The page in hand has no mapping. -/
theorem Booked.hand_frame (h : Booked total roots lost s (some page)) (a p : ℕ) :
    mapping s a p ≠ some page := fun hx =>
  nomatch h.balanced.inj (.frame a p) .hand page hx rfl

theorem Booked.hand_notMem (h : Booked total roots lost s (some page)) : page ∉ s.free :=
  h.balanced.free .hand page rfl

/-! ### `alloc_page` and `free_page` -/

theorem State.held_update_hand (s : State) (roots : Roots) (page : ℕ) :
    Function.update (s.held roots none) .hand (some page) = s.held roots (some page) := by
  funext x
  cases x with
  | hand => exact Function.update_self _ _ _
  | root a => exact Function.update_of_ne (fun h : Holder.root a = .hand => nomatch h) _ _
  | node x => exact Function.update_of_ne (fun h : Holder.node x = .hand => nomatch h) _ _
  | frame a p => exact Function.update_of_ne (fun h : Holder.frame a p = .hand => nomatch h) _ _

/-- **`alloc_page`.** -/
theorem Booked.allocPage (h : Booked total roots lost s none) (halloc : Paging.allocPage alloc s = some (page, s')) :
    Booked total roots lost s' (some page) ∧ s'.pgdir = s.pgdir ∧ s'.data = s.data ∧ s'.ref page = 0 := by
  obtain ⟨hfree, rfl, -⟩ := allocPage_some halloc
  have htakes := h.balanced.takes_one (x := .hand) rfl hfree
  have hbooks : (⟨Function.update (s.books roots none lost).page .hand (some page),
      (s.books roots none lost).free \ {page}, (s.books roots none lost).lost⟩ : Books Holder ℕ) =
      State.books { s with free := s.free.erase page } roots (some page) lost := by
    simp only [State.books, State.held_update_hand, Finset.coe_erase]
    rfl
  rw [hbooks] at htakes
  refine ⟨⟨htakes.balanced h.balanced, h.refs.nonneg, fun f hf => ?_, h.refs.frame⟩, rfl, rfl, ?_⟩
  · exact h.refs.free f (Finset.mem_of_mem_erase hf)
  · exact h.refs.free page hfree

/-- **`free_page`** of a page in no table. -/
theorem Booked.release (h : Booked total roots lost s (some page)) :
    Booked total roots lost (freePage (.user page) s) none := by
  have hpage : ∀ x f, (freePage (.user page) s).held roots none x = some f →
      s.held roots (some page) x = some f ∧ x ≠ .hand := by
    intro x f hx
    cases x with
    | hand => cases hx
    | root a => exact ⟨hx, nofun⟩
    | node x => exact ⟨hx, nofun⟩
    | frame a p => exact ⟨hx, nofun⟩
  have hfree : ∀ f, f ∈ (freePage (.user page) s).free ↔ f = page ∨ f ∈ s.free := fun f =>
    Finset.mem_insert
  have hgives : Gives (s.books roots (some page) lost)
      ((freePage (.user page) s).books roots none lost) := by
    refine ⟨fun x f hx => (hpage x f hx).1, fun x f hx => ?_, fun f hf => ?_, fun f hf => .inl hf,
      fun f hf => (hfree f).mpr (.inr hf), fun f hf => hf, fun f _ hf => .inr hf⟩
    · cases x with
      | hand => exact .inl ((hfree f).mpr (.inl (Option.some.inj hx).symm))
      | root a => exact .inr (.inr hx)
      | node x => exact .inr (.inr hx)
      | frame a p => exact .inr (.inr hx)
    · rcases (hfree f).mp hf with rfl | hf
      · exact .inr ⟨.hand, rfl, nofun⟩
      · exact .inl hf
  have hzero : (freePage (.user page) s).ref page = 0 := Function.update_self page 0 s.ref
  refine ⟨hgives.balanced h.balanced, fun f => ?_, fun f hf => ?_, fun b q f hx => ?_⟩
  · by_cases hf : f = page
    · rw [hf, hzero]
    · exact (h.refs.nonneg f).trans_eq (Function.update_of_ne hf _ _).symm
  · by_cases hfp : f = page
    · rw [hfp, hzero]
    · refine (Function.update_of_ne hfp _ _).trans (h.refs.free f ?_)
      exact ((hfree f).mp hf).resolve_left hfp
  · have hfp : f ≠ page := by
      rintro rfl
      exact h.hand_frame b q hx
    exact (Function.update_of_ne hfp _ _).trans (h.refs.frame b q f hx)

/-! ### `get_pte` -/

/-- A new directory page. -/
theorem node_setDir_dir (hd : s.pgdir a (pdx1 p) = none) (page : ℕ) :
    (s.setDir a (pdx1 p) (some ⟨page, fun _ => none⟩)).node =
      Function.update s.node (.dir a (pdx1 p)) (some page) := by
  funext x
  cases x with
  | dir b i =>
    by_cases hbi : (b, i) = (a, pdx1 p)
    · obtain ⟨rfl, rfl⟩ := Prod.mk.inj hbi
      rw [Function.update_self, State.node, pgdir_setDir_self]
      rfl
    · rw [Function.update_of_ne, State.node, pgdir_setDir_of_ne s _ hbi, State.node]
      rintro ⟨⟩
      exact hbi rfl
  | table b r =>
    rw [Function.update_of_ne (fun h : Node.table b r = .dir a (pdx1 p) => by cases h)]
    exact congrArg (Option.map Table.page) (table_setDir_new hd page b _)

/-- A new table. -/
theorem node_setDir_table {pd0 : Dir} (hd : s.pgdir a (pdx1 p) = some pd0) (pt : Table) :
    (s.setDir a (pdx1 p) (some (pd0.set (pdx0 p) (some pt)))).node =
      Function.update s.node (.table a (p / NPTEENTRY)) (some pt.page) := by
  funext x
  cases x with
  | dir b i =>
    rw [Function.update_of_ne (fun h : Node.dir b i = .table a (p / NPTEENTRY) => by cases h)]
    by_cases hbi : (b, i) = (a, pdx1 p)
    · obtain ⟨rfl, rfl⟩ := Prod.mk.inj hbi
      rw [node_dir hd, node_dir (pgdir_setDir_self _ _ _ _)]
      rfl
    · exact congrArg (Option.map Dir.page) (pgdir_setDir_of_ne s _ hbi)
  | table b r =>
    rw [State.node, table_setDir hd, Nat.mul_div_cancel r (by decide)]
    by_cases hbr : b = a ∧ r = p / NPTEENTRY
    · obtain ⟨rfl, rfl⟩ := hbr
      rw [if_pos ⟨rfl, rfl⟩, Function.update_self]
      rfl
    · rw [if_neg hbr, Function.update_of_ne, State.node]
      rintro ⟨⟩
      exact hbr ⟨rfl, rfl⟩

theorem State.held_update_node (roots : Roots) (hand : Option ℕ) {x : Node}
    (hnode : s'.node = Function.update s.node x (some page)) (hmap : ∀ b q, mapping s' b q = mapping s b q) :
    Function.update (s.held roots hand) (.node x) (some page) = s'.held roots hand := by
  funext y
  cases y with
  | root b => exact Function.update_of_ne (fun h : Holder.root b = .node x => nomatch h) _ _
  | hand => exact Function.update_of_ne (fun h : Holder.hand = .node x => nomatch h) _ _
  | frame b q =>
    exact (Function.update_of_ne (fun h : Holder.frame b q = .node x => nomatch h) _ _).trans (hmap b q).symm
  | node y =>
    show _ = s'.node y
    rw [hnode]
    by_cases hyx : y = x
    · rw [hyx, Function.update_self, Function.update_self]
    · rw [Function.update_of_ne hyx, Function.update_of_ne fun h => hyx (Holder.node.inj h)]
      rfl

theorem node_dir_none (hd : s.pgdir a i = none) : s.node (.dir a i) = none := by
  rw [State.node, hd]
  rfl

/-- A free page becomes a directory or a table. -/
theorem Booked.takes_node (h : Booked total roots lost s hand) {x : Node} (hnone : s.node x = none)
    (hpage : page ∈ s.free) (hnode : s'.node = Function.update s.node x (some page))
    (hmap : ∀ b q, mapping s' b q = mapping s b q) (hfree : s'.free = s.free.erase page)
    (href : s'.ref = Function.update s.ref page 1) : Booked total roots lost s' hand := by
  have htakes := h.balanced.takes_one (show (s.books roots hand lost).page (.node x) = none from hnone) hpage
  have hbooks : (⟨Function.update (s.books roots hand lost).page (.node x) (some page),
      (s.books roots hand lost).free \ {page}, (s.books roots hand lost).lost⟩ : Books Holder ℕ) =
      s'.books roots hand lost := by
    simp only [State.books, State.held_update_node roots hand hnode hmap, hfree, Finset.coe_erase]
  rw [hbooks] at htakes
  refine ⟨htakes.balanced h.balanced, fun f => ?_, fun f hf => ?_, fun b q f hx => ?_⟩
  · rw [href]
    by_cases hf : f = page
    · rw [hf, Function.update_self]
      exact Int.one_nonneg
    · rw [Function.update_of_ne hf]
      exact h.refs.nonneg f
  · rw [hfree, Finset.mem_erase] at hf
    rw [href, Function.update_of_ne hf.1]
    exact h.refs.free f hf.2
  · rw [hmap] at hx
    have hf : f ≠ page := by
      rintro rfl
      exact h.balanced.free (.frame b q) f hx hpage
    rw [href, Function.update_of_ne hf]
    exact h.refs.frame b q f hx

theorem Grows.touches (h : Grows s s' a) (hdir : ∀ i, i ≠ pdx1 p → s'.pgdir a i = s.pgdir a i) :
    Touches s s' a {p} := by
  refine ⟨fun b q _ => h.mapping b q, fun b q f _ _ => by rw [h.data],
    fun x hx => node_of_pgdir (h.others x.space hx), fun b i hi hnone => ?_⟩
  by_cases hb : b = a
  · have hne : i ≠ pdx1 p := fun heq => hi hb p (Finset.mem_singleton_self p) heq.symm
    rw [hb, hdir i hne, ← hb, hnone]
  · rw [h.others b hb, hnone]

theorem Booked.getDir (h : Booked total roots lost s hand) {o : Option Dir}
    (hget : Paging.getDir alloc true a p s = (o, s')) :
    Booked total roots lost s' hand ∧ Grows s s' a ∧ (∀ i, i ≠ pdx1 p → s'.pgdir a i = s.pgdir a i) ∧
      ∀ pd0, o = some pd0 → s'.pgdir a (pdx1 p) = some pd0 := by
  cases hd : s.pgdir a (pdx1 p) with
  | some pd0 =>
    rw [Paging.getDir, hd] at hget
    obtain ⟨rfl, rfl⟩ := Prod.mk.inj hget
    exact ⟨h, Grows.refl s a, fun _ _ => rfl, fun pd hpd => hd.trans hpd⟩
  | none =>
    rw [Paging.getDir, hd] at hget
    simp only [if_true] at hget
    cases halloc : Paging.allocPage alloc s with
    | none =>
      rw [halloc] at hget
      obtain ⟨rfl, rfl⟩ := Prod.mk.inj hget
      exact ⟨h, Grows.refl s a, fun _ _ => rfl, fun _ hsome => by cases hsome⟩
    | some r =>
      obtain ⟨page, t⟩ := r
      rw [halloc] at hget
      obtain ⟨rfl, rfl⟩ := Prod.mk.inj hget
      obtain ⟨hpage, rfl, -⟩ := allocPage_some halloc
      have hg := grows_dir hpage hd
      refine ⟨h.takes_node (node_dir_none hd) hpage ?_ (fun b q => hg.mapping b q) rfl rfl, hg, fun i hi => ?_,
        fun pd hpd => ?_⟩
      · exact node_setDir_dir (s := setPageRef page 1 { s with free := s.free.erase page }) hd page
      · exact pgdir_setDir_of_ne _ _ fun hc => hi (Prod.mk.inj hc).2
      · rw [pgdir_setDir_self]
        exact hpd

/-- **`get_pte`**, whether or not it finds the memory. -/
theorem Booked.getPte (h : Booked total roots lost s hand) {r : Bool}
    (hget : Paging.getPte alloc true a p s = (r, s')) :
    Booked total roots lost s' hand ∧ Grows s s' a ∧ Touches s s' a {p} ∧
      (r = true → (s'.table a p).isSome) := by
  cases hdir : Paging.getDir alloc true a p s with
  | mk o s₁ =>
    obtain ⟨h₁, hg, hsame, hd⟩ := h.getDir hdir
    rw [Paging.getPte, hdir] at hget
    cases o with
    | none =>
      obtain ⟨rfl, rfl⟩ := Prod.mk.inj hget
      exact ⟨h₁, hg, hg.touches hsame, fun htrue => by cases htrue⟩
    | some pd0 =>
      have hd := hd pd0 rfl
      dsimp only at hget
      cases ht : pd0.entry (pdx0 p) with
      | some pt =>
        rw [ht] at hget
        obtain ⟨rfl, rfl⟩ := Prod.mk.inj hget
        refine ⟨h₁, hg, hg.touches hsame, fun _ => ?_⟩
        rw [table_of_dir hd, ht]
        rfl
      | none =>
        rw [ht] at hget
        simp only [if_true] at hget
        cases halloc : Paging.allocPage alloc s₁ with
        | none =>
          rw [halloc] at hget
          obtain ⟨rfl, rfl⟩ := Prod.mk.inj hget
          exact ⟨h₁, hg, hg.touches hsame, fun htrue => by cases htrue⟩
        | some r =>
          obtain ⟨page, t⟩ := r
          rw [halloc] at hget
          obtain ⟨rfl, rfl⟩ := Prod.mk.inj hget
          obtain ⟨hpage, rfl, -⟩ := allocPage_some halloc
          have hg₂ := grows_table hpage hd ht
          have hnone : s₁.node (.table a (p / NPTEENTRY)) = none := by
            rw [State.node, table_region, table_of_dir hd, ht]
            rfl
          have hsame₂ : ∀ i, i ≠ pdx1 p → ((setPageRef page 1 { s₁ with free := s₁.free.erase page }).setDir a
              (pdx1 p) (some (pd0.set (pdx0 p) (some ⟨page, fun _ => Pte.zero⟩)))).pgdir a i = s₁.pgdir a i :=
            fun i hi => pgdir_setDir_of_ne _ _ fun hc => hi (Prod.mk.inj hc).2
          refine ⟨h₁.takes_node hnone hpage ?_ (fun b q => hg₂.mapping b q) rfl rfl, hg.trans hg₂,
            (hg.touches hsame).trans (hg₂.touches hsame₂), fun _ => ?_⟩
          · exact node_setDir_table (s := setPageRef page 1 { s₁ with free := s₁.free.erase page }) hd _
          · rw [table_setDir (s := setPageRef page 1 { s₁ with free := s₁.free.erase page }) hd,
              if_pos ⟨rfl, rfl⟩]
            rfl

/-! ### `page_remove_pte` and `unmap_range` -/

theorem Unmapped.touches (hu : Unmapped s s' a P) : Touches s s' a P := by
  refine ⟨fun b q hq => ?_, fun b q f _ _ => by rw [hu.data], fun x _ => hu.tables.node x, fun b i _ hnone => ?_⟩
  · rw [hu.mapping, if_neg fun hc => hq hc.1 hc.2]
  · have hdir := hu.tables.dir b i
    rw [hnone] at hdir
    exact Option.map_eq_none_iff.mp hdir

theorem Unmapped.mapping_some (hu : Unmapped s s' a P) (hx : Paging.mapping s' b q = some f) :
    Paging.mapping s b q = some f := by
  rw [hu.mapping] at hx
  split at hx
  · cases hx
  · exact hx

/-- **The frames of unmapped pages are free again.** -/
theorem Booked.unmapped (h : Booked total roots lost s hand) (hu : Unmapped s s' a P) :
    Booked total roots lost s' hand := by
  -- a frame of `P` loses its only reference
  have hzero : ∀ p ∈ P, ∀ f, mapping s a p = some f → s'.ref f = 0 := by
    intro p hp f hx
    rw [hu.ref, h.mappingsOf_eq hx hp, Finset.card_singleton, h.refs.frame a p f hx]
    rfl
  have hgives : Gives (s.books roots hand lost) (s'.books roots hand lost) := by
    refine ⟨fun x f hx => ?_, fun x f hx => ?_, fun f hf => ?_, fun f hf => .inl hf,
      fun f hf => (hu.free f).mpr (.inl hf), fun f hf => hf, fun f _ hf => .inr hf⟩
    · cases x with
      | root b => exact hx
      | hand => exact hx
      | node x => exact (hu.tables.node x).symm.trans hx
      | frame b q => exact hu.mapping_some hx
    · cases x with
      | root b => exact .inr (.inr hx)
      | hand => exact .inr (.inr hx)
      | node x => exact .inr (.inr ((hu.tables.node x).trans hx))
      | frame b q =>
        by_cases hbq : b = a ∧ q ∈ P
        · obtain ⟨rfl, hq⟩ := hbq
          exact .inl ((hu.free f).mpr (.inr ⟨⟨q, mem_mappingsOf.mpr ⟨hq, hx⟩⟩, hzero q hq f hx⟩))
        · refine .inr (.inr ?_)
          show mapping s' b q = some f
          rw [hu.mapping, if_neg hbq]
          exact hx
    · refine ((hu.free f).mp hf).imp_right ?_
      rintro ⟨⟨p, hp⟩, -⟩
      obtain ⟨hmem, hx⟩ := mem_mappingsOf.mp hp
      refine ⟨.frame a p, hx, ?_⟩
      show mapping s' a p ≠ some f
      rw [hu.mapping, if_pos ⟨rfl, hmem⟩]
      exact nofun
  have hkeep : ∀ f, s'.ref f = s.ref f ∨ s'.ref f = 0 := by
    intro f
    by_cases hne : (mappingsOf s a P f).Nonempty
    · obtain ⟨p, hp⟩ := hne
      obtain ⟨hmem, hx⟩ := mem_mappingsOf.mp hp
      exact .inr (hzero p hmem f hx)
    · left
      rw [hu.ref, Finset.not_nonempty_iff_eq_empty.mp hne, Finset.card_empty, Nat.cast_zero, sub_zero]
  refine ⟨hgives.balanced h.balanced, fun f => ?_, fun f hf => ?_, fun b q f hx => ?_⟩
  · rcases hkeep f with hf | hf
    · rw [hf]
      exact h.refs.nonneg f
    · rw [hf]
  · rcases (hu.free f).mp hf with hf' | ⟨-, hf'⟩
    · rcases hkeep f with heq | heq
      · rw [heq]
        exact h.refs.free f hf'
      · exact heq
    · exact hf'
  · have hx₀ := hu.mapping_some hx
    have hempty : mappingsOf s a P f = ∅ := by
      refine Finset.eq_empty_of_forall_notMem fun p hp => ?_
      obtain ⟨hmem, hp⟩ := mem_mappingsOf.mp hp
      have heq := h.balanced.inj (.frame a p) (.frame b q) f hp hx₀
      injection heq with ha hpq
      rw [hu.mapping, if_pos ⟨ha.symm, hpq ▸ hmem⟩] at hx
      cases hx
    rw [hu.ref, hempty, Finset.card_empty, Nat.cast_zero, sub_zero]
    exact h.refs.frame b q f hx₀

/-! ### `page_insert` -/

/-- Only the mappings of one page change. -/
theorem touches_setPte (s : State) (a p : ℕ) (e : Pte) (ht : (s.table a p).isSome) :
    Touches s (s.setPte a p e) a {p} := by
  refine ⟨fun b q hq => mapping_congr (pte_setPte_of_ne ht e ?_), fun b q f _ _ => by rw [setPte_data],
    fun x _ => (sameTables_setPte s a p e).node x, fun b i _ hnone => ?_⟩
  · intro heq
    obtain ⟨rfl, rfl⟩ := Prod.mk.inj heq
    exact hq rfl (Finset.mem_singleton_self q)
  · have hdir := (sameTables_setPte s a p e).dir b i
    rw [hnone] at hdir
    exact Option.map_eq_none_iff.mp hdir

/-- The page in hand becomes a frame. -/
theorem Booked.setPte (h : Booked total roots lost s (some page)) (href : s.ref page = 1)
    (ht : (s.table a p).isSome) (hnone : mapping s a p = none) (perm : Perm) :
    Booked total roots lost (s.setPte a p (pteCreate page (PTE_V ||| perm))) none := by
  have hself : mapping (s.setPte a p (pteCreate page (PTE_V ||| perm))) a p = some page := by
    rw [mapping_eq_some, pte_setPte_self ht]
    exact ⟨has_V_pteCreate page perm, rfl⟩
  have hother := (touches_setPte s a p (pteCreate page (PTE_V ||| perm)) ht).mapping
  have hnode := (sameTables_setPte s a p (pteCreate page (PTE_V ||| perm))).node
  have hbooks : (s.setPte a p (pteCreate page (PTE_V ||| perm))).held roots none =
      Function.update (Function.update (s.held roots (some page)) .hand none) (.frame a p) (some page) := by
    funext x
    by_cases hx : x = .frame a p
    · rw [hx, Function.update_self]
      exact hself
    rw [Function.update_of_ne hx]
    cases x with
    | hand =>
      rw [Function.update_self]
      rfl
    | root b =>
      rw [Function.update_of_ne fun h : Holder.root b = .hand => nomatch h]
      rfl
    | node x =>
      rw [Function.update_of_ne fun h : Holder.node x = .hand => nomatch h]
      exact hnode x
    | frame b q =>
      rw [Function.update_of_ne fun h : Holder.frame b q = .hand => nomatch h]
      refine hother b q fun hb hq => hx ?_
      rw [hb, Finset.mem_singleton.mp hq]
  have hhand : (s.books roots (some page) lost).page .hand = some page := rfl
  have hframe : (s.books roots (some page) lost).page (.frame a p) = none := hnone
  have hbal := h.balanced.move hhand hframe
  refine ⟨?_, ?_, ?_, fun b q f hx => ?_⟩
  · rw [State.books, hbooks, setPte_free]
    exact hbal
  · rw [setPte_ref]
    exact h.refs.nonneg
  · rw [setPte_ref, setPte_free]
    exact h.refs.free
  · rw [setPte_ref]
    by_cases hbq : b = a ∧ q = p
    · obtain ⟨rfl, rfl⟩ := hbq
      rw [hself] at hx
      rw [← Option.some.inj hx, href]
    · refine h.refs.frame b q f ((hother b q ?_).symm.trans hx)
      intro hb hq
      exact hbq ⟨hb, Finset.mem_singleton.mp hq⟩

/-- Another reference to the page in hand. -/
theorem Booked.refInc (h : Booked total roots lost s (some page)) :
    Booked total roots lost (pageRefInc page s) (some page) := by
  have hself : (pageRefInc page s).ref page = s.ref page + 1 := Function.update_self _ _ _
  refine ⟨h.balanced, fun f => ?_, fun f hf => ?_, fun b q f hx => ?_⟩
  · by_cases hf : f = page
    · rw [hf, hself]
      exact Int.add_nonneg (h.refs.nonneg page) Int.one_nonneg
    · exact (h.refs.nonneg f).trans_eq (Function.update_of_ne hf _ _).symm
  · have hfp : f ≠ page := fun heq => h.hand_notMem (heq ▸ hf)
    exact (Function.update_of_ne hfp _ _).trans (h.refs.free f hf)
  · have hfp : f ≠ page := by
      rintro rfl
      exact h.hand_frame b q hx
    exact (Function.update_of_ne hfp _ _).trans (h.refs.frame b q f hx)

/-- **`page_insert`** of the page in hand: in the table, or still in hand when memory is short. -/
theorem Booked.pageInsert (h : Booked total roots lost s (some page)) (href : s.ref page = 0) {r : ℤ}
    (hins : Paging.pageInsert alloc a page p perm s = (r, s')) :
    Touches s s' a {p} ∧
      (r = 0 ∧ Booked total roots lost s' none ∧ s'.ref page = 1 ∨
        r = -E_NO_MEM ∧ Booked total roots lost s' (some page) ∧ s'.ref page = 0) := by
  cases hget : Paging.getPte alloc true a p s with
  | mk found s₁ =>
    obtain ⟨h₁, hg, htouch, ht⟩ := h.getPte hget
    have href₁ : s₁.ref page = 0 := (hg.ref page (.inl h.hand_notMem)).trans href
    rw [Paging.pageInsert, hget] at hins
    cases found with
    | false =>
      obtain ⟨rfl, rfl⟩ := Prod.mk.inj hins
      exact ⟨htouch, .inr ⟨rfl, h₁, href₁⟩⟩
    | true =>
      have ht := ht rfl
      have h₂ := h₁.refInc
      have href₂ : (pageRefInc page s₁).ref page = 1 := by
        refine (Function.update_self _ _ _).trans ?_
        rw [href₁]
        rfl
      have hpte : ∀ q, (pageRefInc page s₁).pte a q = s₁.pte a q := fun _ => rfl
      have hinc : Touches s₁ (pageRefInc page s₁) a {p} :=
        Touches.of_pgdir (by rfl) (fun _ _ _ _ => by rfl) a {p}
      have htouch₂ := htouch.trans hinc
      by_cases hv : has (s₁.pte a p).flags PTE_V = true
      · -- an older frame goes first
        have hne : (s₁.pte a p).ppn ≠ page := fun heq =>
          h₁.hand_frame a p (mapping_eq_some.mpr ⟨hv, heq⟩)
        simp only [hpte, hv, hne, if_true, if_false] at hins
        obtain ⟨rfl, rfl⟩ := Prod.mk.inj hins
        have hu := pageRemovePte_spec (pageRefInc page s₁) a p
        have hempty : mappingsOf (pageRefInc page s₁) a {p} page = ∅ := by
          refine Finset.eq_empty_of_forall_notMem fun q hq => ?_
          exact h₂.hand_frame a q (mem_mappingsOf.mp hq).2
        have href₃ : (pageRemovePte a p (pageRefInc page s₁)).ref page = 1 := by
          rw [hu.ref, hempty, href₂]
          rfl
        have ht₃ : ((pageRemovePte a p (pageRefInc page s₁)).table a p).isSome := by
          rw [hu.tables.isSome]
          exact ht
        have hnone : mapping (pageRemovePte a p (pageRefInc page s₁)) a p = none := by
          rw [hu.mapping, if_pos ⟨rfl, Finset.mem_singleton_self p⟩]
        refine ⟨(htouch₂.trans hu.touches).trans (touches_setPte _ a p _ ht₃),
          .inl ⟨rfl, (h₂.unmapped hu).setPte href₃ ht₃ hnone perm, ?_⟩⟩
        rw [setPte_ref, href₃]
      · simp only [hpte, hv, if_false, Bool.false_eq_true] at hins
        obtain ⟨rfl, rfl⟩ := Prod.mk.inj hins
        have ht₂ : ((pageRefInc page s₁).table a p).isSome := ht
        refine ⟨htouch₂.trans (touches_setPte (pageRefInc page s₁) a p _ ht₂),
          .inl ⟨rfl, h₂.setPte href₂ ht₂ (mapping_eq_none.mpr (Bool.eq_false_of_not_eq_true hv)) perm, ?_⟩⟩
        rw [setPte_ref, href₂]

/-- `pgdir_alloc_page`, with its answer; `none` when the assertion on the counter fails. -/
def pgdirAllocPage (alloc : Allocator) (a p : ℕ) (perm : Perm) (s : State) : Option (Option ℕ × State) :=
  match allocPage alloc s with
  | none => some (none, s)
  | some (page, s) =>
    match pageInsert alloc a page p perm s with
    | (ret, s) =>
      if ret ≠ 0 then some (none, freePage (.user page) s)
      else if s.ref page = 1 then some (some page, s)
      else none

/-- **`pgdir_alloc_page`**: its assertion holds, and a page that cannot be mapped goes back. -/
theorem Booked.pgdirAllocPage (h : Booked total roots lost s none) (alloc : Allocator) (a p : ℕ) (perm : Perm) :
    ∃ r s', Paging.pgdirAllocPage alloc a p perm s = some (r, s') ∧ Booked total roots lost s' none ∧
      Touches s s' a {p} := by
  cases halloc : Paging.allocPage alloc s with
  | none => exact ⟨none, s, by rw [Paging.pgdirAllocPage, halloc], h, Touches.refl s a {p}⟩
  | some r =>
    obtain ⟨page, s₁⟩ := r
    obtain ⟨h₁, hpgdir, hdata, href⟩ := h.allocPage halloc
    have htouch := Touches.of_pgdir hpgdir (fun _ _ _ _ => by rw [hdata]) a {p}
    cases hins : Paging.pageInsert alloc a page p perm s₁ with
    | mk ret s₂ =>
      obtain ⟨htouch₂, ⟨rfl, h₂, href₂⟩ | ⟨rfl, h₂, -⟩⟩ := h₁.pageInsert href hins
      · refine ⟨some page, s₂, ?_, h₂, htouch.trans htouch₂⟩
        rw [Paging.pgdirAllocPage, halloc]
        simp only [hins, href₂, ne_eq, not_true_eq_false, if_false, if_true]
      · have hne : -E_NO_MEM ≠ 0 := by decide
        have hfree : Touches s₂ (freePage (.user page) s₂) a {p} :=
          Touches.of_pgdir (by rfl) (fun _ _ _ _ => by rfl) a {p}
        refine ⟨none, _, ?_, h₂.release, (htouch.trans htouch₂).trans hfree⟩
        rw [Paging.pgdirAllocPage, halloc]
        simp only [hins, hne, ne_eq, not_false_eq_true, if_true]

/-! ### `copy_range` -/

theorem Booked.copyPage (h : Booked total roots lost s none) {dst src : ℕ} {r : ℤ}
    (hcopy : Paging.copyPage alloc dst src p s = some (r, s')) :
    Booked total roots lost s' none ∧ Touches s s' dst {p} := by
  cases hget : Paging.getPte alloc true dst p s with
  | mk found s₁ =>
    obtain ⟨h₁, -, htouch, -⟩ := h.getPte hget
    rw [Paging.copyPage, hget] at hcopy
    cases found with
    | false =>
      obtain ⟨rfl, rfl⟩ := Prod.mk.inj (Option.some.inj hcopy)
      exact ⟨h₁, htouch⟩
    | true =>
      dsimp only at hcopy
      cases halloc : Paging.allocPage alloc s₁ with
      | none =>
        rw [halloc] at hcopy
        cases hcopy
      | some q =>
        obtain ⟨npage, s₂⟩ := q
        obtain ⟨h₂, hpgdir, hdata, href⟩ := h₁.allocPage halloc
        rw [halloc] at hcopy
        dsimp only at hcopy
        -- the copy of the bytes changes neither tables nor counters
        have h₃ : Booked total roots lost (s₂.setData npage (s₂.data (s₁.pte src p).ppn)) (some npage) :=
          ⟨h₂.balanced, h₂.refs.nonneg, h₂.refs.free, h₂.refs.frame⟩
        have htouch₃ : Touches s₁ (s₂.setData npage (s₂.data (s₁.pte src p).ppn)) dst {p} := by
          have hpgdir' : (s₂.setData npage (s₂.data (s₁.pte src p).ppn)).pgdir = s₁.pgdir := hpgdir
          refine Touches.of_pgdir hpgdir' (fun b q f hx => ?_) dst {p}
          have hne : f ≠ npage := by
            rintro rfl
            refine h₂.hand_frame b q ((mapping_congr ?_).trans hx)
            simp only [State.pte, State.table, hpgdir]
          exact (Function.update_of_ne hne _ _).trans (congrFun hdata f)
        have href₃ : (s₂.setData npage (s₂.data (s₁.pte src p).ppn)).ref npage = 0 := href
        generalize s₂.setData npage (s₂.data (s₁.pte src p).ppn) = s₃ at h₃ htouch₃ href₃ hcopy
        cases hins : Paging.pageInsert alloc dst npage p ((s₁.pte src p).flags &&& PTE_USER) s₃ with
        | mk ret s₄ =>
          rw [hins] at hcopy
          obtain ⟨htouch₄, ⟨rfl, h₄, -⟩ | ⟨rfl, -⟩⟩ := h₃.pageInsert href₃ hins
          · obtain ⟨rfl, rfl⟩ := Prod.mk.inj (Option.some.inj hcopy)
            exact ⟨h₄, (htouch.trans htouch₃).trans htouch₄⟩
          · cases hcopy

/-- **The loop of `copy_range`**, up to its end or to the page for which memory is short. -/
theorem Booked.copyLoop {dst src : ℕ} {r : ℤ} : ∀ k start s, Booked total roots lost s none →
    (∀ p, start ≤ p → p < stop → p ∈ P) →
    Paging.copyLoop alloc dst src stop k start s = some (r, s') →
    Booked total roots lost s' none ∧ Touches s s' dst P := by
  intro k
  induction k with
  | zero =>
    intro start s h _ hloop
    obtain ⟨rfl, rfl⟩ := Prod.mk.inj (Option.some.inj hloop)
    exact ⟨h, Touches.refl s dst P⟩
  | succ k ih =>
    intro start s h hP hloop
    rw [Paging.copyLoop] at hloop
    by_cases hlt : start < stop
    swap
    · rw [if_neg hlt] at hloop
      obtain ⟨rfl, rfl⟩ := Prod.mk.inj (Option.some.inj hloop)
      exact ⟨h, Touches.refl s dst P⟩
    rw [if_pos hlt] at hloop
    cases ht : s.table src start with
    | none =>
      rw [ht] at hloop
      have hnext := Cow.lt_nextRegion start
      exact ih _ s h (fun p hp => hP p (by omega)) hloop
    | some pt =>
      rw [ht] at hloop
      dsimp only at hloop
      by_cases hv : has (s.pte src start).flags PTE_V = true
      swap
      · rw [if_neg hv] at hloop
        exact ih _ s h (fun p hp => hP p (by omega)) hloop
      rw [if_pos hv] at hloop
      cases hcopy : Paging.copyPage alloc dst src start s with
      | none =>
        rw [hcopy] at hloop
        cases hloop
      | some q =>
        obtain ⟨ret, s₁⟩ := q
        obtain ⟨h₁, htouch⟩ := h.copyPage hcopy
        have hsub : {start} ⊆ P := Finset.singleton_subset_iff.mpr (hP start le_rfl hlt)
        rw [hcopy] at hloop
        dsimp only at hloop
        by_cases hret : ret = 0
        · rw [if_pos hret] at hloop
          obtain ⟨h', htouch'⟩ := ih _ s₁ h₁ (fun p hp => hP p (by omega)) hloop
          exact ⟨h', (htouch.mono hsub).trans htouch'⟩
        · rw [if_neg hret] at hloop
          obtain ⟨rfl, rfl⟩ := Prod.mk.inj (Option.some.inj hloop)
          exact ⟨h₁, htouch.mono hsub⟩

/-- **`copy_range`**, also when it stops half-way. -/
theorem Booked.copyRange (h : Booked total roots lost s none) {dst src : ℕ} {r : ℤ}
    (hcopy : Paging.copyRange alloc dst src start stop s = some (r, s')) :
    Booked total roots lost s' none ∧
      Touches s s' dst (Finset.Ico (start / PGSIZE) (stop / PGSIZE)) := by
  rw [Paging.copyRange] at hcopy
  split at hcopy
  · exact Booked.copyLoop _ _ s h (fun p h₁ h₂ => Finset.mem_Ico.mpr ⟨h₁, h₂⟩) hcopy
  · cases hcopy

/-- **`unmap_range`.** -/
theorem Booked.unmapRange (h : Booked total roots lost s none)
    (hunmap : Paging.unmapRange a start stop s = some s') :
    Booked total roots lost s' none ∧
      Unmapped s s' a (Finset.Ico (start / PGSIZE) (stop / PGSIZE)) := by
  have hr : UserRange start stop := by
    by_contra hr
    rw [Paging.unmapRange, if_neg hr] at hunmap
    cases hunmap
  obtain ⟨t, ht, hu⟩ := unmapRange_spec hr (h.counted.covered a _)
  obtain rfl := Option.some.inj (ht.symm.trans hunmap)
  exact ⟨h.unmapped hu, hu⟩

end Ucore.Paging
