import Ucore.FreeList.Requests
import Ucore.Lib.Transition

/-!
# Runs of the list-based allocators

Clients of a manager call `alloc_pages(k)` and `free_pages(b, k)` in any order; they may free any
pages they hold, in pieces.  `Canonical` is what the free list should look like: sorted, with gaps
between its blocks, counted by `nr_free`, so that the blocks are the maximal runs of free pages.

* The SLUB page layer keeps the list canonical in every run.
* The insertion loop of the first-fit and best-fit managers does not leave after it has inserted at
  the end of the list: one more turn executes `list_add(base, base)`, which makes `base` its own
  predecessor, and the block is not joined with the block before it
  (`free_at_end_is_not_merged`).  **`list_managers_canonical`**: in runs in which no free has to
  insert at the end of a nonempty list, all three keep the list canonical and answer every request
  as first fit or best fit should.
-/

namespace Ucore.FreeList

open LinkedRing Extent Relation

variable {m : ListManager} {base n k : ℕ}

/-- The manager together with the pages its clients hold. -/
structure Client where
  s : FreeArea
  owned : Set ℕ

/-- The managed pages that nobody holds. -/
def Client.free (base n : ℕ) (c : Client) : Set ℕ := Set.Ico base (base + n) \ c.owned

/-- The calls of clients. -/
inductive Call
  | alloc (k : ℕ)
  | free (b k : ℕ)

/-- One call that returns. -/
inductive Step (m : ListManager) : Call → Client → Client → Prop
  | alloc {c : Client} {k p : ℕ} {s' : FreeArea} : 0 < k →
      m.pmm.allocPages k c.s = some (some p, s') →
      Step m (.alloc k) c ⟨s', c.owned ∪ Set.Ico p (p + k)⟩
  | allocNull {c : Client} {k : ℕ} {s' : FreeArea} : 0 < k →
      m.pmm.allocPages k c.s = some (none, s') → Step m (.alloc k) c ⟨s', c.owned⟩
  | free {c : Client} {b k : ℕ} {s' : FreeArea} : 0 < k → Set.Ico b (b + k) ⊆ c.owned →
      m.pmm.freePages b k c.s = some s' →
      Step m (.free b k) c ⟨s', c.owned \ Set.Ico b (b + k)⟩

/-- A free does not insert at the end of a nonempty list: no page is free, or some free page lies
above the freed ones.  The SLUB page layer needs no such condition. -/
def Call.Safe (m : ListManager) (base n : ℕ) (c : Client) : Call → Prop
  | .alloc _ => True
  | .free b _ => m = .slub ∨ c.free base n = ∅ ∨ ∃ i ∈ c.free base n, b < i

/-- A call that meets the condition. -/
def SafeStep (m : ListManager) (base n : ℕ) (c c' : Client) : Prop :=
  ∃ call : Call, call.Safe m base n c ∧ Step m call c c'

/-- The state after `init` and `init_memmap(base, n)`. -/
def Client.start (m : ListManager) (base n : ℕ) (s : FreeArea) : Option Client :=
  (m.pmm.initMemmap base n (m.pmm.init s)).map fun s => ⟨s, ∅⟩

/-! ### The canonical free list -/

/-- The blocks met on the free list: head pages with their `property`. -/
def freeBlocks (s : FreeArea) : Option (List (ℕ × ℕ)) :=
  whileNext s.freeList (fun acc p => (acc ++ [(p, (s.page p).property)], false)) (s.npage + 1)
    none []

/-- The blocks `bs` of the free list are sorted, apart, marked and counted, and they are the maximal
runs of free pages. -/
structure CanonicalList (base n : ℕ) (c : Client) (bs : List (ℕ × ℕ)) : Prop where
  blocks : freeBlocks c.s = some bs
  sorted : bs.Pairwise fun a b => a.1 + a.2 < b.1
  count : c.s.nrFree = (bs.map Prod.snd).sum
  head : ∀ i, base ≤ i → i < base + n → ((c.s.page i).propertyBit = true ↔ ∃ b ∈ bs, b.1 = i)
  runs : ∀ p k, (p, k) ∈ bs ↔ MaximalRun (c.free base n) p k

/-- The free list is canonical. -/
def Canonical (base n : ℕ) (c : Client) : Prop := ∃ bs, CanonicalList base n c bs

/-- `alloc_pages(k)` returns `NULL`, changing nothing, exactly when no `k` contiguous pages are
free; otherwise it takes the first `k` pages of the run its search prefers. -/
def AllocContract (m : ListManager) (base n : ℕ) (c : Client) : Prop :=
  ∀ k, 0 < k → ∃ r s', m.pmm.allocPages k c.s = some (r, s') ∧
    (r = none ↔ ¬ ∃ p, Set.Ico p (p + k) ⊆ c.free base n) ∧ (r = none → s' = c.s) ∧
    ∀ p, r = some p → m.Fit (c.free base n) k p ∧
      Canonical base n ⟨s', c.owned ∪ Set.Ico p (p + k)⟩

/-- A free of held pages returns. -/
def FreeContract (m : ListManager) (base n : ℕ) (c : Client) : Prop :=
  ∀ b k, 0 < k → Set.Ico b (b + k) ⊆ c.owned → Call.Safe m base n c (.free b k) →
    ∃ s', m.pmm.freePages b k c.s = some s'

/-! ### The invariant -/

/-- The free list holds the free pages in sparse extents. -/
structure Client.Good (base n : ℕ) (c : Client) : Prop where
  rep : ∃ bs, Rep base (base + n) c.s bs ∧ Sparse bs ∧ cover bs = c.free base n
  owned : c.owned ⊆ Set.Ico base (base + n)

theorem freeBlocks_eq {lo hi : ℕ} {s : FreeArea} {bs : List (ℕ × ℕ)} (h : Rep lo hi s bs)
    (hs : Sparse bs) : freeBlocks s = some bs := by
  have happ : ∀ (l : List (ℕ × ℕ)) acc, (∀ b ∈ l, (s.page b.1).property = b.2) →
      l.foldl (fun acc b => acc ++ [(b.1, (s.page b.1).property)]) acc = acc ++ l := by
    intro l
    induction l with
    | nil => intro acc _; rw [List.foldl_nil, List.append_nil]
    | cons b l ih =>
      intro acc hl
      rw [List.foldl_cons, ih _ fun a ha => hl a (List.mem_cons_of_mem b ha),
        hl b List.mem_cons_self, List.append_assoc, List.singleton_append]
  rw [freeBlocks, h.list.whileNext _ (Nat.lt_succ_of_le (h.length_le hs)),
    whileList_eq_foldl (f := fun acc p => acc ++ [(p, (s.page p).property)]) _ fun _ _ _ => rfl,
    List.foldl_map, happ bs [] h.property, List.nil_append]

theorem Client.Good.canonical {c : Client} (h : c.Good base n) : Canonical base n c := by
  obtain ⟨bs, hrep, hs, hcov⟩ := h.rep
  refine ⟨bs, freeBlocks_eq hrep hs, hs.gaps, hrep.nrFree, fun i hlo hhi => ?_, fun p k => ?_⟩
  · rw [hrep.bit i hlo hhi, List.mem_map]
  · rw [hs.mem_iff, hcov]

theorem free_alloc {c : Client} {p k : ℕ} {s' : FreeArea} :
    Client.free base n ⟨s', c.owned ∪ Set.Ico p (p + k)⟩ =
      c.free base n \ Set.Ico p (p + k) := by
  ext i
  simp only [Client.free, Set.mem_sdiff, Set.mem_union]
  tauto

theorem Client.Good.alloc {c : Client} (h : c.Good base n) (hk : 0 < k) :
    ∃ r s', m.pmm.allocPages k c.s = some (r, s') ∧
      (r = none → s' = c.s ∧ ¬ ∃ p, Set.Ico p (p + k) ⊆ c.free base n) ∧
      ∀ p, r = some p → m.Fit (c.free base n) k p ∧
        Client.Good base n ⟨s', c.owned ∪ Set.Ico p (p + k)⟩ := by
  obtain ⟨bs, hrep, hs, hcov⟩ := h.rep
  obtain ⟨⟨r, s'⟩, heq, halloc⟩ := allocPages_spec m hrep hs hk
  refine ⟨r, s', heq, ?_, ?_⟩
  · rintro rfl
    obtain ⟨rfl, hno⟩ := halloc
    refine ⟨rfl, ?_⟩
    rintro ⟨p, hp⟩
    exact hs.no_run hk hno (hcov ▸ hp)
  · rintro p rfl
    obtain ⟨hfit, hsub, bs', hrep', hs', hcov'⟩ := halloc
    rw [hcov] at hfit hsub hcov'
    refine ⟨hfit, ⟨bs', hrep', hs', hcov'.trans free_alloc.symm⟩, ?_⟩
    exact Set.union_subset h.owned (hsub.trans Set.sdiff_subset)

theorem Client.Good.free {c : Client} (h : c.Good base n) (hsize : n + 1 < 2 ^ 32) {b k : ℕ}
    (hk : 0 < k) (hheld : Set.Ico b (b + k) ⊆ c.owned) (hsafe : Call.Safe m base n c (.free b k)) :
    ∃ s', m.pmm.freePages b k c.s = some s' ∧
      Client.Good base n ⟨s', c.owned \ Set.Ico b (b + k)⟩ := by
  obtain ⟨bs, hrep, hs, hcov⟩ := h.rep
  have hin := hheld.trans h.owned
  have hlo := (hin ⟨le_rfl, by omega⟩).1
  have hhi := (hin (a := b + k - 1) ⟨by omega, by omega⟩).2
  have hd : Disjoint (Set.Ico b (b + k)) (cover bs) := by
    rw [hcov]
    exact Set.disjoint_sdiff_right.mono_left hheld
  have hinsert : m.MayInsert b bs := by
    rcases hsafe with h' | h' | ⟨i, hi, hlt⟩
    · exact Or.inl h'
    · refine Or.inr (Or.inl (List.eq_nil_iff_forall_not_mem.mpr fun a ha => ?_))
      have : a.1 ∈ cover bs := ⟨a, ha, le_rfl, by have := hs.pos a ha; omega⟩
      rw [hcov, h'] at this
      exact this
    · rw [← hcov] at hi
      obtain ⟨a, ha, h₁, h₂⟩ := hi
      refine Or.inr (Or.inr ⟨a, ha, ?_⟩)
      by_contra hle
      exact Set.disjoint_left.mp hd ⟨le_rfl, by omega⟩ ⟨a, ha, by omega, by omega⟩
  obtain ⟨s', bs', heq, hrep', hs', hcov'⟩ :=
    freePages_spec m hrep hs hk hlo (by omega) hd hinsert (by omega)
  refine ⟨s', heq, ⟨bs', hrep', hs', ?_⟩, Set.sdiff_subset.trans h.owned⟩
  rw [hcov', hcov]
  ext i
  have := @hin i
  simp only [Client.free, Set.mem_union, Set.mem_sdiff]
  tauto

theorem Client.Good.step (hsize : n + 1 < 2 ^ 32) {c c' : Client} (h : c.Good base n)
    (hs : SafeStep m base n c c') : c'.Good base n := by
  obtain ⟨call, hsafe, hs⟩ := hs
  cases hs with
  | alloc hk ha =>
    obtain ⟨r, s', heq, -, hsome⟩ := h.alloc (m := m) hk
    obtain ⟨rfl, rfl⟩ := Prod.mk.inj (Option.some.inj (heq.symm.trans ha))
    exact (hsome _ rfl).2
  | allocNull hk ha =>
    obtain ⟨r, s', heq, hnone, -⟩ := h.alloc (m := m) hk
    obtain ⟨rfl, rfl⟩ := Prod.mk.inj (Option.some.inj (heq.symm.trans ha))
    rw [(hnone rfl).1]
    exact h
  | free hk hheld hf =>
    obtain ⟨s', heq, hgood⟩ := h.free hsize hk hheld hsafe
    obtain rfl := Option.some.inj (heq.symm.trans hf)
    exact hgood

theorem Client.good_start (m : ListManager) {s : FreeArea} (hn : 0 < n) (hsize : n + 1 < 2 ^ 32)
    (hres : ∀ i, base ≤ i → i < base + n → (s.page i).reserved = true)
    (hnp : base + n ≤ s.npage) :
    ∃ c, Client.start m base n s = some c ∧ c.Good base n := by
  obtain ⟨s', heq, hrep⟩ := initMemmap_spec m hn hres hnp hsize
  refine ⟨⟨s', ∅⟩, by rw [start, heq]; rfl, ⟨_, hrep, sparse_cons.mpr ⟨hn, sparse_nil, by simp⟩, ?_⟩,
    Set.empty_subset _⟩
  rw [Client.free, Set.sdiff_empty, cover_cons, cover_nil, Set.union_empty]

/-- **Canonical free lists.**  After one `init_memmap` of reserved pages, in every run in which no
free inserts at the end of a nonempty list (for the SLUB page layer in every run) the free list is
canonical and every call returns as it should. -/
theorem list_managers_canonical (m : ListManager) {s : FreeArea} (hn : 0 < n)
    (hsize : n + 1 < 2 ^ 32) (hres : ∀ i, base ≤ i → i < base + n → (s.page i).reserved = true)
    (hnp : base + n ≤ s.npage) :
    ∃ c₀, Client.start m base n s = some c₀ ∧ ∀ c, ReflTransGen (SafeStep m base n) c₀ c →
      Canonical base n c ∧ AllocContract m base n c ∧ FreeContract m base n c := by
  obtain ⟨c₀, hstart, hgood₀⟩ := Client.good_start m hn hsize hres hnp
  refine ⟨c₀, hstart, fun c hrun => ?_⟩
  have hgood := Transition.invariant (fun _ _ hg hs => hg.step hsize hs) hrun hgood₀
  refine ⟨hgood.canonical, fun k hk => ?_, fun b k hk hheld hsafe => ?_⟩
  · obtain ⟨r, s', heq, hnone, hsome⟩ := hgood.alloc (m := m) hk
    refine ⟨r, s', heq, ⟨fun hr => (hnone hr).2, fun hno => ?_⟩, fun hr => (hnone hr).1,
      fun p hr => ⟨(hsome p hr).1, (hsome p hr).2.canonical⟩⟩
    cases r with
    | none => rfl
    | some p =>
      have hfit := (hsome p rfl).1
      obtain ⟨l, hrun, hl, -⟩ : ∃ l, MaximalRun (c.free base n) p l ∧ k ≤ l ∧ True := by
        cases m <;> obtain ⟨l, h₁, h₂, -⟩ := hfit <;> exact ⟨l, h₁, h₂, trivial⟩
      exact absurd ⟨p, fun i hi => hrun.subset ⟨hi.1, by have := hi.2; omega⟩⟩ hno
  · obtain ⟨s', heq, -⟩ := hgood.free hsize hk hheld hsafe
    exact ⟨s', heq⟩

/-- The array `pages[]` as boot code leaves it: reserved pages and an unused list head. -/
def bootArea (npage : ℕ) : FreeArea := ⟨⟨id, id⟩, 0, fun _ => ⟨0, true, false, 0⟩, npage⟩

/-- Three pages managed first fit, right after `init_memmap`. -/
theorem list_managers_canonical_three :
    ∃ c₀, Client.start .default 0 3 (bootArea 3) = some c₀ ∧
      ∀ c, ReflTransGen (SafeStep .default 0 3) c₀ c →
        Canonical 0 3 c ∧ AllocContract .default 0 3 c ∧ FreeContract .default 0 3 c :=
  list_managers_canonical .default (by decide) (by decide) (fun _ _ _ => rfl) (by decide)

/-- Some run on two pages reaches a state with both pages free and a free list that is not
canonical. -/
def LosesCanonical (m : ListManager) : Prop :=
  ∃ c₀ c, Client.start m 0 2 (bootArea 2) = some c₀ ∧
    ReflTransGen (fun c c' => ∃ call, Step m call c c') c₀ c ∧ c.s.nrFree = 2 ∧ ¬ Canonical 0 2 c

/-- Two pages allocated one by one and freed in the same order: the second free inserts at the end
of the list and the two adjacent blocks stay apart. -/
theorem free_at_end_is_not_merged : LosesCanonical .default ∧ LosesCanonical .bestFit := by
  have h₀ : Set.Ico 0 (0 + 1) ⊆ (∅ ∪ Set.Ico 0 (0 + 1)) ∪ Set.Ico 1 (1 + 1) :=
    fun i hi => Or.inl (Or.inr hi)
  have h₁ : Set.Ico 1 (1 + 1) ⊆
      ((∅ ∪ Set.Ico 0 (0 + 1)) ∪ Set.Ico 1 (1 + 1)) \ Set.Ico 0 (0 + 1) :=
    fun i hi => ⟨Or.inr hi, fun h => absurd h.2 (Nat.not_lt.mpr hi.1)⟩
  have hnot : ∀ c : Client, freeBlocks c.s = some [(0, 1), (1, 1)] → ¬ Canonical 0 2 c := by
    rintro c hblocks ⟨bs, hc⟩
    obtain rfl := Option.some.inj (hblocks.symm.trans hc.blocks)
    exact absurd hc.sorted (by decide)
  constructor
  all_goals
    refine ⟨_, _, rfl, (((ReflTransGen.single ⟨.alloc 1, Step.alloc (p := 0) (by decide) rfl⟩).tail
      ⟨.alloc 1, Step.alloc (p := 1) (by decide) rfl⟩).tail
      ⟨.free 0 1, Step.free (by decide) h₀ rfl⟩).tail
      ⟨.free 1 1, Step.free (by decide) h₁ rfl⟩, rfl, hnot _ rfl⟩

end Ucore.FreeList
