import Mathlib.Algebra.Order.BigOperators.Group.List
import Ucore.Buddy.Operations
import Ucore.Lib.Transition

/-!
# Runs of the buddy allocator

Two views of the same manager, each a step relation over the operations of `Ucore.Buddy.Model`:

* `Step` lets clients free any range of pages they hold, in any pieces and order.  In every state
  reached the free lists are canonical, and the multiset of free blocks depends on the set of free
  pages alone.
* `Round` pairs every successful `buddy_alloc_pages(k)` with one `buddy_free_pages(p, k)`.  The
  allocation takes `2^ceil_order(k)` pages and the release returns `k`, so the pages between the two
  are lost for good: the manager ends where it began exactly when every granted `k` was a power of
  two.
-/

namespace Ucore.Buddy

open Ucore.Dyadic Relation

/-! ### Arbitrary clients -/

/-- The manager together with the pages its clients hold. -/
structure Client where
  s : State
  owned : Set ℕ

/-- One call: an allocation that succeeds or returns `NULL`, or a free of pages that are held.
A request on which `ceil_order` does not return leads to no further state. -/
inductive Step : Client → Client → Prop
  | alloc {c : Client} {k p need : ℕ} {s' : State} :
      buddyAllocPages k c.s = some (some p, s') → ceilOrder k = some need →
      Step c ⟨s', c.owned ∪ block need p⟩
  | allocNull {c : Client} {k : ℕ} {s' : State} :
      buddyAllocPages k c.s = some (none, s') → Step c ⟨s', c.owned⟩
  | free {c : Client} {base m : ℕ} : pageRange base m ⊆ c.owned →
      Step c ⟨buddyFreePages base m c.s, c.owned \ pageRange base m⟩

/-- The state after `buddy_init` and `buddy_init_memmap(base, n)`: nothing is held. -/
def Client.start (n : ℕ) (page : ℕ → Page) : Client :=
  ⟨buddyInitMemmap n (buddyInit page), ∅⟩

/-- Every managed page is free or held, none is both. -/
structure Client.Good (n : ℕ) (c : Client) : Prop where
  inv : Inv n c.s
  disjoint : Disjoint c.owned (freePages c.s)
  all : c.owned ∪ freePages c.s = {i | i < n}

theorem Client.good_start (n : ℕ) (page : ℕ → Page) : (Client.start n page).Good n := by
  obtain ⟨hinv, hfree, -⟩ := buddyInitMemmap_spec n page
  exact ⟨hinv, Set.empty_disjoint _, by rw [Client.start, Set.empty_union]; exact hfree⟩

theorem Client.Good.step {n : ℕ} {c c' : Client} (h : c.Good n) (hs : Step c c') : c'.Good n := by
  cases hs with
  | alloc ha hneed =>
    obtain ⟨need, hneed', -, -, -, hinv, hsub, hfree, -⟩ := buddyAllocPages_some h.inv ha
    obtain rfl := Option.some.inj (hneed.symm.trans hneed')
    refine ⟨hinv, ?_, ?_⟩
    · rw [hfree, Set.disjoint_union_left]
      exact ⟨h.disjoint.mono_right Set.sdiff_subset, Set.disjoint_sdiff_right⟩
    · rw [hfree, Set.union_assoc, Set.union_sdiff_cancel hsub, h.all]
  | allocNull ha =>
    obtain rfl := buddyAllocPages_null ha
    exact h
  | @free base m hheld =>
    have hin : pageRange base m ⊆ {i | i < n} := by
      rw [← h.all]
      exact hheld.trans Set.subset_union_left
    obtain ⟨hinv, hfree, -⟩ := buddyFreePages_spec h.inv hin (h.disjoint.mono_left hheld)
    refine ⟨hinv, ?_, ?_⟩
    · rw [hfree, Set.disjoint_union_right]
      exact ⟨h.disjoint.mono_left Set.sdiff_subset, Set.disjoint_sdiff_left⟩
    · rw [hfree, Set.union_comm (freePages c.s), ← Set.union_assoc, Set.sdiff_union_of_subset hheld,
        h.all]

/-- The states that clients can bring about. -/
def Client.Reachable (n : ℕ) (page : ℕ → Page) (c : Client) : Prop :=
  ReflTransGen Step (Client.start n page) c

theorem Client.Reachable.good {n : ℕ} {page : ℕ → Page} {c : Client} (h : c.Reachable n page) :
    c.Good n :=
  Transition.invariant (fun _ _ hg hs => hg.step hs) h (Client.good_start n page)

theorem Client.Reachable.freePages_eq {n : ℕ} {page : ℕ → Page} {c : Client}
    (h : c.Reachable n page) (hnone : c.owned = ∅) : freePages c.s = {i | i < n} := by
  rw [← h.good.all, hnone, Set.empty_union]

/-- The canonical form of the free lists, entry by entry. -/
structure CanonicalForm (n : ℕ) (c : Client) : Prop where
  head : ∀ o < BUDDY_MAX_ORDER, ∀ p ∈ c.s.freeArea o,
    (c.s.page p).propertyBit = true ∧ (c.s.page p).property = 2 ^ o ∧ 2 ^ o ∣ p ∧ p + 2 ^ o ≤ n
  nodup : ∀ o < BUDDY_MAX_ORDER, (c.s.freeArea o).Nodup
  disjoint : ∀ o < BUDDY_MAX_ORDER, ∀ p ∈ c.s.freeArea o,
    ∀ o' < BUDDY_MAX_ORDER, ∀ p' ∈ c.s.freeArea o', (o, p) ≠ (o', p') →
      Disjoint (block o p) (block o' p')
  disjointOwned : ∀ o < BUDDY_MAX_ORDER, ∀ p ∈ c.s.freeArea o, Disjoint (block o p) c.owned
  count : c.s.freeNrPages = ∑ o ∈ Finset.range BUDDY_MAX_ORDER, (c.s.freeArea o).length * 2 ^ o
  noBuddies : ∀ o < 10, ∀ p ∈ c.s.freeArea o, buddyIdxOf p o ∉ c.s.freeArea o
  /-- A page that nobody holds lies in a free block. -/
  all : c.owned ∪ freePages c.s = {i | i < n}

theorem Client.Good.canonicalForm {n : ℕ} {c : Client} (h : c.Good n) : CanonicalForm n c where
  head o ho p hp :=
    ⟨(h.inv.head ⟨ho, hp⟩).1, (h.inv.head ⟨ho, hp⟩).2, h.inv.canonical.aligned ⟨ho, hp⟩,
      h.inv.inside ⟨ho, hp⟩⟩
  nodup o _ := h.inv.nodup o
  disjoint o ho p hp o' ho' p' hp' hne := by
    refine Set.disjoint_left.mpr fun i hi hi' => hne ?_
    obtain ⟨rfl, rfl⟩ := h.inv.canonical.disjoint ⟨ho, hp⟩ ⟨ho', hp'⟩ hi hi'
    rfl
  disjointOwned o ho p hp :=
    (h.disjoint.mono_right (block_subset_cover (B := blocks c.s) ⟨ho, hp⟩)).symm
  count := h.inv.count
  noBuddies o ho p hp hb :=
    h.inv.canonical.noBuddies ho ⟨ho.trans (by decide), hp⟩ ⟨ho.trans (by decide), hb⟩
  all := h.all

/-- **Canonical form.**  Whatever pieces are freed in whatever order, the free lists hold disjoint,
aligned and correctly marked blocks with no mergeable pair, these blocks are exactly the pages that
nobody holds, and two states with the same free pages have the same multiset of free blocks. -/
theorem buddy_canonical_form (n : ℕ) {page page' : ℕ → Page} {c c' : Client}
    (h : c.Reachable n page) (h' : c'.Reachable n page') :
    CanonicalForm n c ∧
      (freePages c.s = freePages c'.s →
        ∀ o < BUDDY_MAX_ORDER, (c.s.freeArea o).Perm (c'.s.freeArea o)) := by
  refine ⟨h.good.canonicalForm, fun hfree o ho => ?_⟩
  rw [List.perm_ext_iff_of_nodup (h.good.inv.nodup o) (h'.good.inv.nodup o)]
  intro p
  have := h.good.inv.canonical.eq_of_cover_eq h'.good.inv.canonical hfree o p
  simpa only [blocks, ho, true_and] using this

/-- Page descriptors as boot code leaves them: reserved, not yet a block head. -/
def bootPage : ℕ → Page := fun _ => ⟨0, true, false, 0⟩

/-- Two of four pages are allocated and given back one by one, once from the left and once from the
right.  Each run ends in a merge over two orders, and both leave the one block of order two. -/
theorem buddy_canonical_form_four : ∃ c c' : Client,
    c.Reachable 4 bootPage ∧ c'.Reachable 4 bootPage ∧ c.s.freeArea 2 = [0] ∧ c.s.freeNrPages = 4 ∧ CanonicalForm 4 c ∧
    ∀ o < BUDDY_MAX_ORDER, (c.s.freeArea o).Perm (c'.s.freeArea o) := by
  have halloc : Step (Client.start 4 bootPage) _ := Step.alloc (k := 2) rfl rfl
  have hheld : ∀ i < 2, i ∈ (Client.start 4 bootPage).owned ∪ block 1 0 :=
    fun i hi => Or.inr ⟨i.zero_le, hi⟩
  have hfree (c : Client) (p : ℕ) (h : pageRange p 1 ⊆ c.owned) :
      Step c ⟨buddyFreePages p 1 c.s, c.owned \ pageRange p 1⟩ := .free h
  have hleft := ((ReflTransGen.single halloc).tail
    (hfree _ 0 fun i hi => hheld i (hi.2.trans (by decide)))).tail
    (hfree _ 1 fun i hi => ⟨hheld i hi.2, fun h => absurd hi.1 h.2.not_ge⟩)
  have hright := ((ReflTransGen.single halloc).tail
    (hfree _ 1 fun i hi => hheld i hi.2)).tail
    (hfree _ 0 fun i hi =>
      ⟨hheld i (hi.2.trans (by decide)), fun h => absurd hi.2 h.1.not_gt⟩)
  have hnone (i : ℕ) (hi : i ∈ (Client.start 4 bootPage).owned ∪ block 1 0) :
      i ∈ pageRange 0 1 ∪ pageRange 1 1 := by
    simp only [Client.start, Set.empty_union, mem_block, Set.mem_union, mem_pageRange] at hi ⊢
    omega
  obtain ⟨hform, hperm⟩ := buddy_canonical_form 4 hleft hright
  refine ⟨_, _, hleft, hright, rfl, rfl, hform, hperm ?_⟩
  rw [Client.Reachable.freePages_eq hleft, Client.Reachable.freePages_eq hright]
  · exact Set.eq_empty_of_forall_notMem fun i hi =>
      (hnone i hi.1.1).elim hi.2 hi.1.2
  · exact Set.eq_empty_of_forall_notMem fun i hi =>
      (hnone i hi.1.1).elim hi.1.2 hi.2

/-! ### Paired allocations and releases -/

/-- A session: the manager, the successful requests not yet released (page and requested size), and
the sizes of all successful requests so far. -/
structure Session where
  s : State
  outstanding : List (ℕ × ℕ)
  granted : List ℕ

/-- One call of a client that releases every successful `p = buddy_alloc_pages(k)` once, by
`buddy_free_pages(p, k)`. -/
inductive Round : Session → Session → Prop
  | alloc {x : Session} {k p : ℕ} {s' : State} : 1 ≤ k →
      buddyAllocPages k x.s = some (some p, s') →
      Round x ⟨s', (p, k) :: x.outstanding, k :: x.granted⟩
  | allocNull {x : Session} {k : ℕ} {s' : State} : 1 ≤ k →
      buddyAllocPages k x.s = some (none, s') → Round x ⟨s', x.outstanding, x.granted⟩
  | free {x : Session} {k p : ℕ} : (p, k) ∈ x.outstanding →
      Round x ⟨buddyFreePages p k x.s, x.outstanding.erase (p, k), x.granted⟩

/-- The session after `buddy_init_memmap(base, n)`. -/
def Session.start (n : ℕ) (page : ℕ → Page) : Session :=
  ⟨buddyInitMemmap n (buddyInit page), [], []⟩

/-- The pages that an allocation of `k` takes beyond the `k` that its release gives back. -/
def waste (k : ℕ) : ℕ := 2 ^ (ceilOrder k).getD 0 - k

theorem waste_eq {k need : ℕ} (h : ceilOrder k = some need) : k + waste k = 2 ^ need := by
  have := (ceilOrder_spec h).1
  rw [waste, h, Option.getD_some]
  omega

/-- An allocation is exact only for a power of two. -/
theorem waste_eq_zero_iff {k need : ℕ} (h : ceilOrder k = some need) :
    waste k = 0 ↔ ∃ o, k = 2 ^ o := by
  have hw := waste_eq h
  constructor
  · intro h0
    exact ⟨need, by omega⟩
  · rintro ⟨o, rfl⟩
    obtain ⟨hle, hlt⟩ := ceilOrder_spec h
    have hge : o ≤ need := (Nat.pow_le_pow_iff_right (by decide)).mp hle
    have hle' : need ≤ o := by
      by_contra hgt
      have h₁ := hlt (by omega)
      have h₂ : o ≤ need - 1 := by omega
      exact absurd (Nat.pow_le_pow_right (n := 2) (by decide) h₂) (by omega)
    obtain rfl : o = need := by omega
    omega

/-- The bookkeeping of a session: every page is free, requested and not released, or wasted. -/
structure Session.Good (n : ℕ) (x : Session) : Prop where
  inv : Inv n x.s
  inside : ∀ a ∈ x.outstanding, pageRange a.1 a.2 ⊆ {i | i < n} \ freePages x.s
  disjoint : x.outstanding.Pairwise fun a b => Disjoint (pageRange a.1 a.2) (pageRange b.1 b.2)
  count : x.s.freeNrPages + (x.outstanding.map Prod.snd).sum + (x.granted.map waste).sum = n
  ceil : ∀ k ∈ x.granted, ∃ need, ceilOrder k = some need
  all : (∀ k ∈ x.granted, waste k = 0) →
    ∀ i < n, i ∈ freePages x.s ∨ ∃ a ∈ x.outstanding, i ∈ pageRange a.1 a.2

theorem Session.good_start (n : ℕ) (page : ℕ → Page) : (Session.start n page).Good n := by
  obtain ⟨hinv, hfree, hnr⟩ := buddyInitMemmap_spec n page
  refine ⟨hinv, by simp [start], List.Pairwise.nil, by simpa [start] using hnr, by simp [start],
    fun _ i hi => Or.inl ?_⟩
  rw [start, hfree]
  exact hi

theorem Session.Good.step {n : ℕ} {x x' : Session} (h : x.Good n) (hs : Round x x') :
    x'.Good n := by
  cases hs with
  | @alloc k p s' _ ha =>
    obtain ⟨need, hneed, -, -, -, hinv, hsub, hfree, hnr⟩ := buddyAllocPages_some h.inv ha
    have hw := waste_eq hneed
    have hrange : pageRange p k ⊆ block need p :=
      fun i hi => ⟨hi.1, by have := hi.2; omega⟩
    refine ⟨hinv, ?_, ?_, ?_, ?_, ?_⟩
    · rintro a (_ | ⟨_, ha'⟩)
      · refine fun i hi => ⟨?_, ?_⟩
        · exact h.inv.freePages_lt (hsub (hrange hi))
        · rw [hfree]
          exact fun hmem => hmem.2 (hrange hi)
      · refine (h.inside a ha').trans (Set.sdiff_subset_sdiff_right ?_)
        rw [hfree]
        exact Set.sdiff_subset
    · refine List.pairwise_cons.mpr ⟨fun a ha' => ?_, h.disjoint⟩
      refine Set.disjoint_left.mpr fun i hi hi' => ?_
      exact ((h.inside a ha') hi').2 (hsub (hrange hi))
    · have := h.count
      simp only [List.map_cons, List.sum_cons]
      omega
    · rintro k' (_ | ⟨_, hk'⟩)
      · exact ⟨need, hneed⟩
      · exact h.ceil k' hk'
    · intro hzero i hi
      have hk : 2 ^ need = k := by
        have := hzero k List.mem_cons_self
        omega
      rcases h.all (fun k' hk' => hzero k' (List.mem_cons_of_mem _ hk')) i hi with hf | ⟨a, ha', hi'⟩
      · by_cases hb : i ∈ block need p
        · refine Or.inr ⟨(p, k), List.mem_cons_self, ?_⟩
          rw [mem_block, hk] at hb
          exact hb
        · exact Or.inl (by rw [hfree]; exact ⟨hf, hb⟩)
      · exact Or.inr ⟨a, List.mem_cons_of_mem _ ha', hi'⟩
  | allocNull _ ha =>
    obtain rfl := buddyAllocPages_null ha
    exact h
  | @free k p hmem =>
    have hin := h.inside (p, k) hmem
    obtain ⟨hinv, hfree, hnr⟩ := buddyFreePages_spec h.inv (hin.trans Set.sdiff_subset)
      (Set.disjoint_left.mpr fun i hi => (hin hi).2)
    have hperm := List.perm_cons_erase hmem
    have hpw := hperm.pairwise_iff (fun {_ _} hd => hd.symm) |>.mp h.disjoint
    obtain ⟨hhead, htail⟩ := List.pairwise_cons.mp hpw
    refine ⟨hinv, fun a ha => ?_, htail, ?_, h.ceil, fun hzero i hi => ?_⟩
    · refine fun i hi => ⟨(h.inside a (List.mem_of_mem_erase ha) hi).1, ?_⟩
      rw [hfree]
      rintro (hf | hf)
      · exact (h.inside a (List.mem_of_mem_erase ha) hi).2 hf
      · exact Set.disjoint_left.mp (hhead a ha) hf hi
    · have hsum := (hperm.map Prod.snd).sum_eq
      simp only [List.map_cons, List.sum_cons] at hsum
      have := h.count
      simp only [hnr]
      omega
    · simp only [hfree]
      rcases h.all hzero i hi with hf | ⟨a, ha, hi'⟩
      · exact Or.inl (Or.inl hf)
      · rcases List.mem_cons.mp (hperm.mem_iff.mp ha) with rfl | ha'
        · exact Or.inl (Or.inr hi')
        · exact Or.inr ⟨a, ha', hi'⟩

/-- **When no page is lost.**  Once everything is released, the count and the set of free pages are
what they were after `buddy_init_memmap` if and only if every granted size was a power of two. -/
theorem buddy_restores_iff (n : ℕ) (page : ℕ → Page) {x : Session}
    (h : ReflTransGen Round (Session.start n page) x) (hout : x.outstanding = []) :
    (buddyNrFreePages x.s = buddyNrFreePages (Session.start n page).s ∧
        freePages x.s = freePages (Session.start n page).s) ↔
      ∀ k ∈ x.granted, ∃ o, k = 2 ^ o := by
  have hgood := Transition.invariant (fun _ _ hg hs => hg.step hs) h (Session.good_start n page)
  obtain ⟨-, hfree₀, hnr₀⟩ := buddyInitMemmap_spec n page
  have hcount := hgood.count
  rw [hout] at hcount
  simp only [List.map_nil, List.sum_nil, add_zero] at hcount
  have hiff : ∀ k ∈ x.granted, waste k = 0 ↔ ∃ o, k = 2 ^ o := fun k hk => by
    obtain ⟨need, hneed⟩ := hgood.ceil k hk
    exact waste_eq_zero_iff hneed
  simp only [buddyNrFreePages, Session.start, hnr₀, hfree₀]
  constructor
  · rintro ⟨hnr, -⟩ k hk
    rw [← hiff k hk]
    have := List.le_sum_of_mem (List.mem_map_of_mem (f := waste) hk)
    omega
  · intro hpow
    have hzero : ∀ k ∈ x.granted, waste k = 0 := fun k hk => (hiff k hk).mpr (hpow k hk)
    have hsum : (x.granted.map waste).sum = 0 := by
      rw [List.map_congr_left hzero, List.sum_map_zero]
    refine ⟨by omega, Set.Subset.antisymm (fun i hi => hgood.inv.freePages_lt hi) fun i hi => ?_⟩
    rcases hgood.all hzero i hi with hf | ⟨a, ha, -⟩
    · exact hf
    · rw [hout] at ha
      exact (List.not_mem_nil ha).elim

/-- One page allocated and released: the manager of four pages is as before. -/
theorem buddy_restores_one : ∃ x, ReflTransGen Round (Session.start 4 bootPage) x ∧
    x.outstanding = [] ∧ x.granted = [1] ∧
    buddyNrFreePages x.s = buddyNrFreePages (Session.start 4 bootPage).s ∧
    freePages x.s = freePages (Session.start 4 bootPage).s := by
  have halloc : Round (Session.start 4 bootPage) _ := Round.alloc (k := 1) le_rfl rfl
  have hrun := (ReflTransGen.single halloc).tail (Round.free List.mem_cons_self)
  refine ⟨_, hrun, rfl, rfl, (buddy_restores_iff 4 bootPage hrun rfl).mpr ?_⟩
  rintro k (_ | ⟨_, hk⟩)
  · exact ⟨0, rfl⟩
  · exact (List.not_mem_nil hk).elim

/-- Three pages allocated and released from a manager of four: the allocation took four, one of
them never comes back. -/
theorem buddy_release_of_three_loses_a_page :
    ∃ x, ReflTransGen Round (Session.start 4 bootPage) x ∧ x.outstanding = [] ∧ x.granted = [3] ∧
      buddyNrFreePages (Session.start 4 bootPage).s = 4 ∧ buddyNrFreePages x.s = 3 := by
  have halloc : Round (Session.start 4 bootPage) _ := Round.alloc (k := 3) (by decide) rfl
  exact ⟨_, (ReflTransGen.single halloc).tail (Round.free List.mem_cons_self), rfl, rfl, rfl, rfl⟩

end Ucore.Buddy
