import Mathlib.Algebra.Order.BigOperators.Group.List
import Mathlib.Algebra.Order.Group.Nat
import Ucore.Slob.Runs

/-!
# When `kmalloc` gives enough memory

A request below `PAGE_SIZE - SLOB_UNIT` goes to `slob_alloc` with a header added, and `slob_alloc`
asserts that there is still a unit less than a page; a larger one goes to the page allocator with the
order that `find_order` counts by halving an `int`.  `mallocs_iff` says for which sizes the parts fit
together: not for the sizes whose header comes into the way of the assertion, not for those that lose a
bit in the halving, and not for those that are no positive `int`.
-/

namespace Ucore.Slob

open Function CircularList Fallible

variable {arena m n x : ℕ} {t t' u : List ℕ} {h h' : Heap}

/-! ### `find_order` -/

theorem findOrder_of_le {size : ℤ} (h : size ≤ 4096) : findOrder size = 0 := by
  rw [findOrder, if_neg (not_lt.2 h)]

theorem findOrder_of_lt {size : ℤ} (h : 4096 < size) : findOrder size = findOrder (size / 2) + 1 := by
  rw [findOrder, if_pos h]

/-- The halving loses the bits that are shifted out. -/
theorem findOrder_spec (size : ℕ) :
    size < 4097 * 2 ^ findOrder size ∧ ∀ j < findOrder size, 4097 * 2 ^ j ≤ size := by
  induction size using Nat.strong_induction_on with
  | _ size ih =>
    rcases le_or_gt size 4096 with hle | hlt
    · rw [findOrder_of_le (by omega)]
      exact ⟨by omega, fun j hj => absurd hj (Nat.not_lt_zero j)⟩
    · have hhalf : ((size : ℤ) / 2) = ((size / 2 : ℕ) : ℤ) := by omega
      obtain ⟨hup, hlow⟩ := ih (size / 2) (by omega)
      rw [findOrder_of_lt (by omega), hhalf]
      refine ⟨?_, fun j hj => ?_⟩
      · rw [pow_succ]
        omega
      · cases j with
        | zero => omega
        | succ j =>
          have hj' := hlow j (by omega)
          rw [pow_succ]
          omega

theorem findOrder_lt_iff {size : ℕ} :
    size ≤ PAGE_SIZE * 2 ^ findOrder size ↔
      ∀ j, 0 < j → ¬ (4096 * 2 ^ j < size ∧ size < 4097 * 2 ^ j) := by
  obtain ⟨hup, hlow⟩ := findOrder_spec size
  simp only [PAGE_SIZE]
  constructor
  · rintro hle j hj ⟨h1, h2⟩
    rcases lt_or_ge j (findOrder size) with hlt | hge
    · exact absurd (hlow j hlt) (not_le.2 h2)
    · have hpow : 2 ^ findOrder (size : ℤ) ≤ 2 ^ j := Nat.pow_le_pow_right (by decide) hge
      omega
  · intro hall
    by_contra hlt
    rcases Nat.eq_zero_or_pos (findOrder size) with hzero | hpos
    · rw [hzero] at hup hlt
      omega
    · exact hall _ hpos ⟨not_le.1 hlt, hup⟩

theorem toInt_of_lt {size : BitVec 64} (h : size.toNat < 2 ^ 31) : toInt size = size.toNat := by
  have hmod : (size.setWidth 32).toNat = size.toNat := by
    rw [BitVec.toNat_setWidth]
    omega
  rw [toInt, BitVec.toInt_eq_toNat_cond, hmod]
  omega

theorem toInt_lt (size : BitVec 64) : toInt size < 2 ^ 31 := BitVec.toInt_lt (x := size.setWidth 32)

/-- An `int` has not more than this many halvings. -/
theorem findOrder_le {size : ℤ} (h : size < 2 ^ 31) : findOrder size ≤ 19 := by
  by_contra hlt
  rcases le_or_gt size 4096 with hle | hgt
  · rw [findOrder_of_le hle] at hlt
    omega
  · obtain ⟨n, rfl⟩ := Int.eq_ofNat_of_zero_le (show 0 ≤ size by omega)
    have hlow := (findOrder_spec n).2 19 (by omega)
    omega

/-- The pages that `find_order` counts are enough for a positive `int`, unless a bit is lost. -/
theorem le_findOrder_toInt_iff (size : BitVec 64) :
    size.toNat ≤ PAGE_SIZE * 2 ^ findOrder (toInt size) ↔
      size.toNat < 2 ^ 31 ∧ ∀ j, 0 < j → ¬ (4096 * 2 ^ j < size.toNat ∧ size.toNat < 4097 * 2 ^ j) := by
  rcases lt_or_ge size.toNat (2 ^ 31) with hlt | hge
  · rw [toInt_of_lt hlt, findOrder_lt_iff]
    exact ⟨fun h => ⟨hlt, h⟩, fun h => h.2⟩
  · refine iff_of_false (fun hle => ?_) fun h => absurd h.1 (not_lt.2 hge)
    have hpow : 2 ^ findOrder (toInt size) ≤ 2 ^ 19 :=
      Nat.pow_le_pow_right (by decide) (findOrder_le (toInt_lt size))
    simp only [PAGE_SIZE] at hle
    -- what is left is `2 ^ 31`, a negative `int`
    have heq : size = 0x80000000#64 := BitVec.eq_of_toNat_eq (by simp only [BitVec.toNat_ofNat]; omega)
    have hzero : findOrder (toInt size) = 0 := by
      rw [heq]
      exact findOrder_of_le (by decide)
    rw [hzero] at hle
    omega

/-! ### The regions -/

/-- The pages of a big block. -/
def Bigblock.region (bb : Bigblock) : Block := ⟨bb.pages * PAGE_UNITS, PAGE_UNITS * 2 ^ bb.order⟩

/-- All blocks that are allocated, the headers of big blocks among them. -/
def Kheap.allocated (k : Kheap) : List Block := k.live ++ k.bigblocks.map Bigblock.region

/-- A heap as the runs of its users leave it, beside the pages of big blocks. -/
structure SoundHeap (arena : ℕ) extends Kheap where
  wellFormed : ∃ t, WellFormed arena toState t
  big : ∀ bb ∈ bigblocks, ∀ x, bb.region.has x → x ≠ arena ∧ x / PAGE_UNITS ∉ heap.pages

/-- What the page allocator answers with: pages that nobody has. -/
structure Supplies (arena : ℕ) (k : Kheap) (pages : List ℕ) (run : Option ℕ) (count : ℕ) : Prop where
  fresh : ∀ page ∈ pages, Fresh arena k.heap.pages page
  freshBig : ∀ page ∈ pages, ∀ bb ∈ k.bigblocks, ∀ x, bb.region.has x → x / PAGE_UNITS ≠ page
  run : ∀ first ∈ run, first ≠ 0 ∧ ∀ x, first * PAGE_UNITS ≤ x → x < (first + count) * PAGE_UNITS →
    x ≠ arena ∧ x / PAGE_UNITS ∉ k.heap.pages ∧ x / PAGE_UNITS ∉ pages ∧
      ∀ bb ∈ k.bigblocks, ¬ bb.region.has x

/-- What `kmalloc(size)` promises on a heap, whatever the page allocator answers: it comes back, and a
pointer that it returns begins a region of `size` bytes in one block, which no other allocated block
overlaps. -/
def Mallocs (arena : ℕ) (k : Kheap) (size : BitVec 64) : Prop :=
  ∀ pages run, Supplies arena k pages run (2 ^ findOrder (toInt size)) →
    ∃ N ret k', (∀ turns, N ≤ turns → kmalloc turns pages run size k = .ok (ret, k')) ∧
      ∀ ptr, ret = some ptr → ∃ b rest, k'.allocated.Perm (b :: rest) ∧ (∀ c ∈ k.allocated, c ∈ rest) ∧
        (∀ c ∈ rest, ∀ x, b.has x → ¬ c.has x) ∧
        ∀ x, ptr ≤ x → SLOB_UNIT * (x - ptr) < size.toNat → b.has x

variable {pages : List ℕ} {run : Option ℕ} {count : ℕ} {size : BitVec 64}

/-- Where the units of the free blocks are when a page may have been added. -/
theorem Grown.within {k : SoundHeap arena} (hw : WellFormed arena k.toState t)
    (hg : Grown arena pages k.heap h t u) (hx : h.covers (h.slobfree :: u) x) :
    x = arena ∨ x / PAGE_UNITS ∈ k.heap.pages ∨ x / PAGE_UNITS ∈ pages := by
  rcases hg with ⟨rfl, rfl⟩ | ⟨page, hpage, -, hfreed⟩
  · exact (hw.within x hx).imp_right .inl
  · rcases (hfreed.covers x).1 hx with hold | ⟨hlow, hhigh⟩
    · exact (hw.within x hold).imp_right .inl
    · have hdiv : x / PAGE_UNITS = page := by
        simp only [PAGE_UNITS] at hlow hhigh ⊢
        omega
      exact .inr (.inr (hdiv ▸ hpage))

/-- A free unit is in no allocated block. -/
theorem Grown.not_allocated {k : SoundHeap arena} (hw : WellFormed arena k.toState t)
    (hs : Supplies arena k.toKheap pages run count) (hg : Grown arena pages k.heap h t u)
    (hx : h.covers (h.slobfree :: u) x) : ∀ c ∈ k.allocated, ¬ c.has x := by
  intro c hc hcx
  rcases List.mem_append.1 hc with hlive | hbig
  · exact (hw.grow hg).freeLive x hx c hlive hcx
  · obtain ⟨bb, hbb, rfl⟩ := List.mem_map.1 hbig
    obtain ⟨hne, hnot⟩ := k.big bb hbb x hcx
    rcases hg.within hw hx with heq | hold | hnew
    · exact hne heq
    · exact hnot hold
    · exact hs.freshBig _ hnew bb hbb x hcx rfl

/-- The block that `slob_alloc` takes is free before. -/
theorem covers_of_room {p : ℕ} (hf : FreeList h h.slobfree t) (hp : p ∈ h.slobfree :: t)
    (hroom : n ≤ h.units (h.next p)) (hlow : h.next p ≤ x) (hhigh : x < h.next p + n) :
    h.covers (h.slobfree :: t) x :=
  ⟨h.next p, hf.circle.next_mem hp, hlow, by omega⟩

/-- A request that leaves room for its header and one more unit in a page. -/
theorem mallocs_of_small (k : SoundHeap arena) (hsize : size.toNat < 4064) :
    Mallocs arena k.toKheap size := by
  intro pages run hs
  obtain ⟨t, hw⟩ := k.wellFormed
  have hlimit : size.toNat + SLOB_UNIT + SLOB_UNIT < PAGE_SIZE := by
    simp only [SLOB_UNIT, PAGE_SIZE]
    omega
  have hpath : size.toNat < PAGE_SIZE - SLOB_UNIT := by omega
  obtain ⟨N, r, hrun, hr⟩ := slobAlloc_ok hw.coalesced hw.within hlimit
    fun page hpage => hs.fresh page (List.mem_of_mem_head? hpage)
  rcases hr with ⟨rfl, -⟩ | ⟨h₁, t₁, p, hg, hp, hroom, rfl⟩
  · refine ⟨N, none, k.toKheap, fun turns hturns => ?_, fun p hp => by cases hp⟩
    rw [kmalloc, if_pos hpath, hrun turns hturns]
    rfl
  · refine ⟨N, some (h₁.next p + 1),
      k.toKheap.grant (h₁.next p) (take p (h₁.next p) (slobUnits (size.toNat + SLOB_UNIT)) h₁),
      fun turns hturns => ?_, ?_⟩
    · rw [kmalloc, if_pos hpath, hrun turns hturns]
      rfl
    · rintro ptr ⟨rfl⟩
      refine ⟨_, k.allocated, .refl _, fun c hc => hc, fun c hc x hx => ?_, fun x hlow hhigh => ?_⟩
      · rw [Block.has, take_units_self] at hx
        have hcov := covers_of_room (hg.coalesced hw.coalesced).freeList hp hroom hx.1 hx.2
        exact hg.not_allocated hw hs hcov c hc
      · rw [Block.has, take_units_self]
        simp only [slobUnits, SLOB_UNIT] at hhigh ⊢
        omega

/-- The fields of a big block are written into its header. -/
theorem Changed.setBigblock {s : State} {b : Block} (hc : Changed arena s pages ⟨h, b :: s.live⟩ t)
    (order first : ℕ) : Changed arena s pages ⟨Slob.setBigblock b.addr order first h, b :: s.live⟩ t := by
  have hw := hc.wellFormed
  refine ⟨hw.write _ _ fun a ha => ?_, fun c hold hnew => ?_, hc.pages⟩
  · have hne : a ≠ b.addr := fun heq => hw.header_notMem List.mem_cons_self (heq ▸ ha)
    exact ⟨update_of_ne hne _ _, update_of_ne hne _ _⟩
  · exact (update_of_ne (hw.addr_ne hold) _ _).trans (hc.units c hold hnew)

/-- A new block is in the pages of the heap, and in no other allocated block. -/
theorem Changed.apart {k : SoundHeap arena} (hs : Supplies arena k.toKheap pages run count) {b : Block}
    (hc : Changed arena k.toState pages ⟨h, b :: k.live⟩ t) (hx : b.has x) :
    (x / PAGE_UNITS ∈ k.heap.pages ∨ x / PAGE_UNITS ∈ pages) ∧ ∀ c ∈ k.allocated, ¬ c.has x := by
  have hin := hc.pages _ (hc.wellFormed.liveWithin b List.mem_cons_self x hx)
  refine ⟨hin, fun c hc' => ?_⟩
  rcases List.mem_append.1 hc' with hlive | hbig
  · exact (List.pairwise_cons.1 hc.wellFormed.livePairwise).1 c hlive x hx
  · obtain ⟨bb, hbb, rfl⟩ := List.mem_map.1 hbig
    intro hcx
    rcases hin with hold | hnew
    · exact (k.big bb hbb x hcx).2 hold
    · exact hs.freshBig _ hnew bb hbb x hcx rfl

/-- A larger request first gets a header, and then it has what the page allocator answers. -/
theorem kmalloc_large (k : SoundHeap arena) (hs : Supplies arena k.toKheap pages run count)
    (hsize : 4080 ≤ size.toNat) :
    ∃ N r, (∀ turns, N ≤ turns → kmalloc turns pages run size k.toKheap = .ok r) ∧
      ((∃ h t, r = (none, { k.toKheap with heap := h }) ∧ (pages = [] ∨ run = none) ∧
          Changed arena k.toState pages ⟨h, k.live⟩ t) ∨
        ∃ bb h first t, run = some first ∧ h.units bb = slobUnits sizeofBigblock ∧
          Changed arena k.toState pages
            ⟨setBigblock bb (findOrder (toInt size)) first h, ⟨bb, h.units bb⟩ :: k.live⟩ t ∧
          r = (some (first * PAGE_UNITS), { k.toKheap.grant bb h with
            heap := setBigblock bb (findOrder (toInt size)) first h
            bigblocks := ⟨bb, findOrder (toInt size), first⟩ :: k.bigblocks })) := by
  obtain ⟨t, hw⟩ := k.wellFormed
  have hpath : ¬ size.toNat < PAGE_SIZE - SLOB_UNIT := by
    simp only [PAGE_SIZE, SLOB_UNIT]
    omega
  obtain ⟨N, r, hrun, hr⟩ := hw.alloc (show sizeofBigblock + SLOB_UNIT < PAGE_SIZE by decide) (by decide) hs.fresh
  rcases hr with ⟨rfl, hpages⟩ | ⟨bb, h, t₁, rfl, hunits, hgranted⟩
  · refine ⟨N, (none, k.toKheap), fun turns hturns => ?_,
      .inl ⟨k.heap, t, rfl, .inl hpages, .refl hw pages⟩⟩
    rw [kmalloc, if_neg hpath, hrun turns hturns]
    rfl
  · cases hrunpages : run with
    | none =>
      -- the header goes back with its size, as its own fields have overwritten it
      have hwritten := hgranted.setBigblock (findOrder (toInt size)) 0
      obtain ⟨h', t₂, hfree, hfreed⟩ := hwritten.wellFormed.free List.mem_cons_self
        (.inr ⟨show sizeofBigblock ≠ 0 by decide, hunits.symm⟩)
      have hback := hwritten.trans hfreed (List.subset_cons_self _ _)
      rw [List.erase_cons_head] at hback
      refine ⟨max N (t₁.length + 1), _, fun turns hturns => ?_, .inl ⟨h', t₂, rfl, .inr rfl, hback⟩⟩
      rw [kmalloc, if_neg hpath, hrun turns (le_trans (le_max_left _ _) hturns)]
      have hfree' := hfree turns (lt_of_lt_of_le (Nat.lt_succ_self _) (le_trans (le_max_right _ _) hturns))
      simp only [bind_ok]
      exact congrArg (· >>= _) hfree'
    | some first =>
      refine ⟨N, _, fun turns hturns => ?_, .inr ⟨bb, h, first, t₁, rfl, hunits,
        hgranted.setBigblock (findOrder (toInt size)) first, rfl⟩⟩
      rw [kmalloc, if_neg hpath, hrun turns hturns]
      rfl

theorem Bigblock.has_region {bb : Bigblock} (hx : bb.region.has x) :
    bb.pages * PAGE_UNITS ≤ x ∧ x < (bb.pages + 2 ^ bb.order) * PAGE_UNITS := by
  obtain ⟨hlow, hhigh⟩ := hx
  simp only [Bigblock.region] at hlow hhigh
  rw [Nat.add_mul, Nat.mul_comm (2 ^ _)]
  exact ⟨hlow, hhigh⟩

/-- New pages of a big block are in no other allocated block. -/
theorem Supplies.apart {k : SoundHeap arena} {first : ℕ}
    (hs : Supplies arena k.toKheap pages (some first) count) (hlow : first * PAGE_UNITS ≤ x)
    (hhigh : x < (first + count) * PAGE_UNITS) : ∀ c ∈ k.allocated, ¬ c.has x := by
  obtain ⟨-, hheap, -, hbig⟩ := (hs.run first rfl).2 x hlow hhigh
  intro c hc
  rcases List.mem_append.1 hc with hlive | hbigmem
  · intro hcx
    obtain ⟨t, hw⟩ := k.wellFormed
    exact hheap (hw.liveWithin c hlive x hcx)
  · obtain ⟨bb, hbb, rfl⟩ := List.mem_map.1 hbigmem
    exact hbig bb hbb

/-- A request whose pages are enough. -/
theorem mallocs_of_large (k : SoundHeap arena) (hsize : 4080 ≤ size.toNat)
    (hle : size.toNat ≤ PAGE_SIZE * 2 ^ findOrder (toInt size)) : Mallocs arena k.toKheap size := by
  intro pages run hs
  obtain ⟨N, r, hrun, hr⟩ := kmalloc_large k hs hsize
  refine ⟨N, r.1, r.2, hrun, fun ptr hptr => ?_⟩
  rcases hr with ⟨h, t, rfl, -, -⟩ | ⟨bb, h, first, t, rfl, -, hchanged, rfl⟩
  · exact nomatch hptr
  · cases hptr
    refine ⟨Bigblock.region ⟨bb, findOrder (toInt size), first⟩, ⟨bb, h.units bb⟩ :: k.allocated,
      ?_, fun c hc => List.mem_cons_of_mem _ hc, fun c hc x hx => ?_, fun x hlow hhigh => ?_⟩
    · exact @List.perm_middle _ _ (⟨bb, h.units bb⟩ :: k.live) _
    · obtain ⟨hlow, hhigh⟩ := Bigblock.has_region hx
      rcases List.mem_cons.1 hc with rfl | hc
      · intro hcx
        obtain ⟨-, hheap, hpages, -⟩ := (hs.run first rfl).2 x hlow hhigh
        exact (hchanged.apart hs hcx).1.elim hheap hpages
      · exact hs.apart hlow hhigh c hc
    · simp only [Block.has, Bigblock.region, PAGE_UNITS, SLOB_UNIT, PAGE_SIZE] at hlow hhigh hle ⊢
      omega

/-! ### The sizes that fail -/

/-- A request whose header comes into the way of the assertion. -/
theorem kmalloc_panics {turns : ℕ} {k : Kheap} (hlow : 4064 ≤ size.toNat) (hhigh : size.toNat < 4080) :
    kmalloc turns pages run size k = .error .slobAlloc := by
  have hpath : size.toNat < PAGE_SIZE - SLOB_UNIT := by
    simp only [PAGE_SIZE, SLOB_UNIT]
    omega
  have hlimit : ¬ size.toNat + SLOB_UNIT + SLOB_UNIT < PAGE_SIZE := by
    simp only [SLOB_UNIT, PAGE_SIZE]
    omega
  rw [kmalloc, if_pos hpath, slobAlloc, require, if_neg hlimit]
  rfl

theorem not_mallocs_of_panic (k : Kheap) (hlow : 4064 ≤ size.toNat) (hhigh : size.toNat < 4080) :
    ¬ Mallocs arena k size := by
  intro hok
  obtain ⟨N, ret, k', hrun, -⟩ := hok [] none ⟨nofun, nofun, nofun⟩
  exact nomatch (kmalloc_panics hlow hhigh).symm.trans (hrun N le_rfl)

/-- The page allocator never runs out of page numbers. -/
theorem exists_supplies (k : SoundHeap arena) (count : ℕ) :
    ∃ page, Supplies arena k.toKheap [page] (some (page + 1)) count := by
  obtain ⟨q, hq⟩ : ∃ q, (∀ page ∈ k.heap.pages, page < q) ∧
      (∀ bb ∈ k.bigblocks, bb.pages + 2 ^ bb.order < q) ∧ arena < q := by
    refine ⟨k.heap.pages.sum + (k.bigblocks.map fun bb => bb.pages + 2 ^ bb.order).sum + arena + 1,
      fun page hpage => ?_, fun bb hbb => ?_, by omega⟩
    · have hle := List.single_le_sum (fun _ _ => Nat.zero_le _) page hpage
      omega
    · have hle := List.single_le_sum (fun _ _ => Nat.zero_le _) _
        (List.mem_map_of_mem (f := fun bb : Bigblock => bb.pages + 2 ^ bb.order) hbb)
      omega
  obtain ⟨hheap, hbig, harena⟩ := hq
  have hbelow : ∀ bb ∈ k.bigblocks, ∀ x, bb.region.has x → x / PAGE_UNITS < q := by
    rintro bb hbb x ⟨hlow, hhigh⟩
    have hlt := hbig bb hbb
    simp only [Bigblock.region, PAGE_UNITS] at hlow hhigh ⊢
    omega
  refine ⟨q, fun page hpage => ?_, fun page hpage bb hbb x hx heq => ?_, ?_⟩
  · rw [List.mem_singleton.1 hpage]
    refine ⟨by omega, fun hmem => lt_irrefl _ (hheap q hmem), .inr ?_⟩
    simp only [PAGE_UNITS]
    omega
  · rw [List.mem_singleton.1 hpage] at heq
    exact absurd (hbelow bb hbb x hx) (by omega)
  · rintro first ⟨rfl⟩
    refine ⟨by omega, fun x hlow _ => ?_⟩
    have hdiv : q < x / PAGE_UNITS := by
      simp only [PAGE_UNITS] at hlow ⊢
      omega
    refine ⟨?_, fun hmem => ?_, fun hmem => ?_, fun bb hbb hx => ?_⟩
    · rintro rfl
      exact absurd (Nat.div_le_self x PAGE_UNITS) (by omega)
    · exact absurd (hheap _ hmem) (by omega)
    · rw [List.mem_singleton.1 hmem] at hdiv
      exact lt_irrefl _ hdiv
    · exact absurd (hbelow bb hbb x hx) (by omega)

/-- A request whose pages are not enough gets a pointer whose region leaves them. -/
theorem not_mallocs_of_large (k : SoundHeap arena) (hsize : 4080 ≤ size.toNat)
    (hlt : PAGE_SIZE * 2 ^ findOrder (toInt size) < size.toNat) : ¬ Mallocs arena k.toKheap size := by
  intro hok
  obtain ⟨page, hs⟩ := exists_supplies k (2 ^ findOrder (toInt size))
  obtain ⟨N, ret, k', hrun, hret⟩ := hok [page] (some (page + 1)) hs
  obtain ⟨N', r, hrun', hr⟩ := kmalloc_large k hs hsize
  have heq := (hrun (max N N') (le_max_left _ _)).symm.trans (hrun' (max N N') (le_max_right _ _))
  rcases hr with ⟨h, t, -, hnone, -⟩ | ⟨bb, h, first, t, hfirst, -, hchanged, rfl⟩
  · rcases hnone with hnone | hnone
    · exact absurd hnone (List.cons_ne_nil _ _)
    · exact nomatch hnone
  · cases hfirst
    cases heq
    obtain ⟨b, rest, hperm, -, -, hall⟩ := hret _ rfl
    have hbegin := hall ((page + 1) * PAGE_UNITS) le_rfl (by rw [Nat.sub_self]; omega)
    have hmem := hperm.mem_iff.2 (List.mem_cons_self (a := b) (l := rest))
    have hpos := Nat.two_pow_pos (findOrder (toInt size))
    have hhigh : (page + 1) * PAGE_UNITS < (page + 1 + 2 ^ findOrder (toInt size)) * PAGE_UNITS := by
      simp only [PAGE_UNITS]
      omega
    obtain ⟨-, hheap, hpages, -⟩ := (hs.run _ rfl).2 _ le_rfl hhigh
    rcases List.mem_append.1 hmem with hlive | hregion
    · rcases List.mem_cons.1 hlive with rfl | hlive
      · exact (hchanged.apart hs hbegin).1.elim hheap hpages
      · exact hs.apart le_rfl hhigh b (List.mem_append_left _ hlive) hbegin
    · rcases List.mem_cons.1 hregion with rfl | hregion
      · -- the unit behind the last page is still in the region asked for
        have hend := (hall ((page + 1) * PAGE_UNITS + PAGE_UNITS * 2 ^ findOrder (toInt size))
          (Nat.le_add_right _ _) (by
            simp only [PAGE_UNITS, PAGE_SIZE, SLOB_UNIT] at hlt ⊢
            omega)).2
        exact lt_irrefl _ hend
      · exact hs.apart le_rfl hhigh b (List.mem_append_right _ hregion) hbegin

/-- The sizes for which the parts of `kmalloc` fit together: those below 4064, and those from 4080 on that are
positive numbers of type `int` and no less than `4097 * 2 ^ j` where they are more than `4096 * 2 ^ j`. -/
def Fits (size : BitVec 64) : Prop :=
  size.toNat < 4064 ∨ 4080 ≤ size.toNat ∧ size.toNat < 2 ^ 31 ∧
    ∀ j, 0 < j → ¬ (4096 * 2 ^ j < size.toNat ∧ size.toNat < 4097 * 2 ^ j)

/-- `kmalloc` on a sound heap. -/
theorem mallocs_iff (k : SoundHeap arena) (size : BitVec 64) : Mallocs arena k.toKheap size ↔ Fits size := by
  rw [Fits, ← le_findOrder_toInt_iff]
  rcases lt_or_ge size.toNat 4064 with hsmall | hge
  · exact iff_of_true (mallocs_of_small k hsmall) (.inl hsmall)
  · rcases lt_or_ge size.toNat 4080 with hmid | hlarge
    · refine iff_of_false (not_mallocs_of_panic k.toKheap hge hmid) fun h => ?_
      rcases h with hlt | ⟨hle, -⟩
      · exact absurd hlt (not_lt.2 hge)
      · exact absurd hmid (not_lt.2 hle)
    · constructor
      · intro hok
        exact .inr ⟨hlarge, not_lt.1 fun hlt => not_mallocs_of_large k hlarge hlt hok⟩
      · rintro (hlt | ⟨-, hle⟩)
        · exact absurd hlt (not_lt.2 hge)
        · exact mallocs_of_large k hlarge hle

end Ucore.Slob
