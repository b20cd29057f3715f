import Mathlib.Data.List.Perm.Subperm
import Ucore.FreeList.Requests
import Ucore.Slub.Model

/-!
# The invariant of the object layer

`SlabRep s live c p is` describes one slab: from `free_head` the chain visits the slots `is`, each
once, and the other slots are the live objects.  `CacheInv` collects the slabs and counters of one
cache, `Inv` all caches and the page layer.

Between the two halves of an allocation or a free there may be one slab on a partial list with all
of its slots free; the parameter `fresh` names it.  Between calls it is `none`.

A slab depends on its own header and page, and on the stride and capacity of its cache only:
`SlabRep.frame` and `CacheInv.frame` carry the invariant past any change elsewhere.
-/

namespace Ucore.Slub

open FreeList Extent Memory

variable {s s' : State} {live live' : List (CacheId × ℕ)} {c : CacheId} {p i j stride : ℕ}
  {is : List ℕ} {fresh fresh' : Option ℕ} {lo hi : ℕ}

/-- All slabs of a cache. -/
abbrev State.slabs (s : State) (c : CacheId) : List ℕ :=
  (s.cache c).partialList ++ (s.cache c).fullList

/-- The link stored in slot `i` of the slab in page `p`. -/
abbrev link (m : Mem) (p stride i : ℕ) : ℕ := read16 m (slotAddr p stride i)

/-- The slab of cache `c` in page `p` has the free slots `is`. -/
structure SlabRep (s : State) (live : List (CacheId × ℕ)) (c : CacheId) (p : ℕ)
    (is : List ℕ) : Prop where
  magic : (s.slab p).magic = SLUB_SLAB_MAGIC
  cache : (s.slab p).cache = c
  page : (s.slab p).page = p
  capacity : (s.slab p).capacity = (s.cache c).objsPerSlab
  stride : (s.slab p).objStride = (s.cache c).objStride
  pos : 0 < (s.cache c).objsPerSlab
  chain : Chain (link s.mem p (s.cache c).objStride) SLUB_FREELIST_END (s.slab p).freeHead is
  nodup : is.Nodup
  count : (s.slab p).freeCount = is.length
  bound : ∀ i ∈ is, i < (s.cache c).objsPerSlab
  live : ∀ i < (s.cache c).objsPerSlab,
    ((c, slotAddr p (s.cache c).objStride i) ∈ live ↔ i ∉ is)

/-- The slabs and counters of a cache. -/
structure CacheInv (s : State) (live : List (CacheId × ℕ)) (fresh : Option ℕ) (c : CacheId) :
    Prop where
  size : 0 < (s.cache c).objsPerSlab →
    2 ≤ (s.cache c).objStride ∧ (s.cache c).objSize ≤ (s.cache c).objStride
  room : (s.cache c).objsPerSlab * (s.cache c).objStride ≤ PGSIZE - slabHeaderSize
  slabs : ∀ p ∈ s.slabs c, ∃ is, SlabRep s live c p is
  onPartial : ∀ p ∈ (s.cache c).partialList, 0 < (s.slab p).freeCount ∧
    ((s.slab p).freeCount = (s.slab p).capacity → fresh = some p)
  onFull : ∀ p ∈ (s.cache c).fullList, (s.slab p).freeCount = 0
  nodup : (s.slabs c).Nodup
  total : (s.cache c).slabsTotal = (s.slabs c).length
  partialCount : (s.cache c).slabsPartial = (s.cache c).partialList.length
  inuse : (s.cache c).inuseObjs = live.countP fun a => a.1 = c
  live : ∀ a, (c, a) ∈ live →
    ∃ p ∈ s.slabs c, ∃ i < (s.cache c).objsPerSlab, a = slotAddr p (s.cache c).objStride i

/-- The pages of all slabs. -/
def slabPages (s : State) : Set ℕ := {p | ∃ c, p ∈ s.slabs c}

/-- The invariant of the object layer over the managed pages `[lo, hi)`. -/
structure Inv (lo hi : ℕ) (s : State) (live : List (CacheId × ℕ)) (fresh : Option ℕ) : Prop where
  caches : ∀ c, CacheInv s live fresh c
  nodup : live.Nodup
  area : ∃ bs, Rep lo hi s.area bs ∧ Sparse bs ∧ cover bs = Set.Ico lo hi \ slabPages s
  inside : slabPages s ⊆ Set.Ico lo hi
  unused : ∀ i, s.customUsed i = false → ∀ a, (CacheId.custom i, a) ∉ live
  active : ∀ i, (s.cache (.custom i)).active = true → s.customUsed i = true

/-! ### Slots -/

/-- A slot lies in its page, past the header. -/
theorem slot_in_page {n : ℕ} (hroom : n * stride ≤ PGSIZE - slabHeaderSize) (hi : i < n) :
    p * PGSIZE + slabHeaderSize ≤ slotAddr p stride i ∧
      slotAddr p stride i + stride ≤ (p + 1) * PGSIZE := by
  have hle : (i + 1) * stride ≤ n * stride := Nat.mul_le_mul_right stride hi
  rw [Nat.add_mul, Nat.one_mul] at hle
  rw [slotAddr, Nat.add_mul p, Nat.one_mul]
  have : slabHeaderSize ≤ PGSIZE := by decide
  omega

theorem slot_page {n : ℕ} (hroom : n * stride ≤ PGSIZE - slabHeaderSize) (hi : i < n)
    (hs : 2 ≤ stride) : slotAddr p stride i / PGSIZE = p := by
  obtain ⟨h₁, h₂⟩ := slot_in_page (p := p) hroom hi
  have hpos : 0 < PGSIZE := by decide
  rw [Nat.div_eq_iff hpos]
  rw [Nat.add_mul, Nat.one_mul] at h₂
  omega

/-- Distinct slots of a slab are apart. -/
theorem slot_apart (p stride : ℕ) (h : i ≠ j) :
    slotAddr p stride i + stride ≤ slotAddr p stride j ∨
      slotAddr p stride j + stride ≤ slotAddr p stride i := by
  rw [slotAddr, slotAddr]
  rcases Nat.lt_or_gt_of_ne h with hij | hij
  · have := Nat.mul_le_mul_right stride (Nat.succ_le_of_lt hij)
    rw [Nat.succ_mul] at this
    omega
  · have := Nat.mul_le_mul_right stride (Nat.succ_le_of_lt hij)
    rw [Nat.succ_mul] at this
    omega

theorem slot_inj (hs : 2 ≤ stride) (h : slotAddr p stride i = slotAddr p stride j) : i = j := by
  by_contra hne
  rcases slot_apart p stride hne with h' | h' <;> omega

/-! ### Consequences for one slab -/

theorem nodup_length_le {n : ℕ} (hn : is.Nodup) (hb : ∀ i ∈ is, i < n) : is.length ≤ n := by
  have := (List.subperm_of_subset hn fun i hi => List.mem_range.mpr (hb i hi)).length_le
  rwa [List.length_range] at this

/-- A list with fewer than `n` entries misses a number below `n`. -/
theorem exists_not_mem {n : ℕ} (h : is.length < n) : ∃ i < n, i ∉ is := by
  by_contra hall
  push Not at hall
  have := (List.subperm_of_subset List.nodup_range fun i hi =>
    hall i (List.mem_range.mp hi)).length_le
  rw [List.length_range] at this
  omega

theorem SlabRep.freeCount_le (h : SlabRep s live c p is) :
    (s.slab p).freeCount ≤ (s.cache c).objsPerSlab := by
  rw [h.count]
  exact nodup_length_le h.nodup h.bound

/-- A slab with an allocated slot holds a live object. -/
theorem SlabRep.exists_live (h : SlabRep s live c p is)
    (hlt : (s.slab p).freeCount < (s.cache c).objsPerSlab) :
    ∃ i < (s.cache c).objsPerSlab, (c, slotAddr p (s.cache c).objStride i) ∈ live := by
  obtain ⟨i, hi, hnot⟩ := exists_not_mem (h.count ▸ hlt)
  exact ⟨i, hi, (h.live i hi).mpr hnot⟩

/-- **A cache without live objects holds no slab.** -/
theorem CacheInv.slabs_eq_nil (h : CacheInv s live none c) (hno : ∀ a, (c, a) ∉ live) :
    s.slabs c = [] := by
  refine List.eq_nil_iff_forall_not_mem.mpr fun p hp => ?_
  obtain ⟨is, hrep⟩ := h.slabs p hp
  have hlt : (s.slab p).freeCount < (s.cache c).objsPerSlab := by
    rcases List.mem_append.mp hp with hp | hp
    · have hne := (h.onPartial p hp).2
      have hle := hrep.freeCount_le
      rw [hrep.capacity] at hne
      refine Nat.lt_of_le_of_ne hle fun he => ?_
      exact absurd (hne he) (by simp)
    · rw [h.onFull p hp]
      exact hrep.pos
  obtain ⟨i, -, hlive⟩ := hrep.exists_live hlt
  exact hno _ hlive

/-- A page holds slabs of one cache only. -/
theorem Inv.cache_unique (h : Inv lo hi s live fresh) {c c' : CacheId} (hp : p ∈ s.slabs c)
    (hp' : p ∈ s.slabs c') : c = c' := by
  obtain ⟨is, hrep⟩ := (h.caches c).slabs p hp
  obtain ⟨is', hrep'⟩ := (h.caches c').slabs p hp'
  exact hrep.cache.symm.trans hrep'.cache

/-! ### Frames -/

/-- The bytes of page `p` agree. -/
def SamePage (m m' : Mem) (p : ℕ) : Prop :=
  ∀ a, p * PGSIZE ≤ a → a < (p + 1) * PGSIZE → m' a = m a

theorem link_congr {n : ℕ} {m m' : Mem} (hm : SamePage m m' p)
    (hroom : n * stride ≤ PGSIZE - slabHeaderSize) (hs : 2 ≤ stride) (hi : i < n) :
    link m' p stride i = link m p stride i := by
  obtain ⟨h₁, h₂⟩ := slot_in_page (p := p) hroom hi
  exact read16_congr (hm _ (by omega) (by omega)) (hm _ (by omega) (by omega))

/-- A slab is unaffected by changes to other headers, other pages and objects elsewhere. -/
theorem SlabRep.frame (h : SlabRep s live c p is) (hc : CacheInv s live fresh c)
    (hslab : s'.slab p = s.slab p)
    (hcap : (s'.cache c).objsPerSlab = (s.cache c).objsPerSlab)
    (hstride : (s'.cache c).objStride = (s.cache c).objStride)
    (hmem : SamePage s.mem s'.mem p)
    (hlive : ∀ a, a / PGSIZE = p → ((c, a) ∈ live' ↔ (c, a) ∈ live)) :
    SlabRep s' live' c p is := by
  have hs := (hc.size h.pos).1
  refine ⟨?_, ?_, ?_, ?_, ?_, ?_, ?_, h.nodup, ?_, ?_, ?_⟩
  · rw [hslab, h.magic]
  · rw [hslab, h.cache]
  · rw [hslab, h.page]
  · rw [hslab, hcap, h.capacity]
  · rw [hslab, hstride, h.stride]
  · rw [hcap]
    exact h.pos
  · rw [hslab, hstride]
    exact h.chain.congr fun i hi => link_congr hmem hc.room hs (h.bound i hi)
  · rw [hslab, h.count]
  · rw [hcap]
    exact h.bound
  · rw [hcap, hstride]
    intro i hi
    rw [hlive _ (slot_page hc.room hi hs)]
    exact h.live i hi

/-- A cache is unaffected by changes to other caches and their slabs. -/
theorem CacheInv.frame (h : CacheInv s live fresh c) (hcache : s'.cache c = s.cache c)
    (hslab : ∀ p ∈ s.slabs c, s'.slab p = s.slab p ∧ SamePage s.mem s'.mem p)
    (hlive : ∀ a, (c, a) ∈ live' ↔ (c, a) ∈ live)
    (hcount : live'.countP (fun a => a.1 = c) = live.countP fun a => a.1 = c)
    (hfresh : ∀ p ∈ s.slabs c, fresh = some p → fresh' = some p) :
    CacheInv s' live' fresh' c := by
  have hslabs : s'.slabs c = s.slabs c := by rw [State.slabs, hcache]
  refine ⟨?_, ?_, ?_, ?_, ?_, ?_, ?_, ?_, ?_, ?_⟩
  · rw [hcache]
    exact h.size
  · rw [hcache]
    exact h.room
  · intro p hp
    rw [hslabs] at hp
    obtain ⟨is, hrep⟩ := h.slabs p hp
    exact ⟨is, hrep.frame h (hslab p hp).1 (by rw [hcache]) (by rw [hcache]) (hslab p hp).2
      fun a _ => hlive a⟩
  · intro p hp
    rw [hcache] at hp
    have hmem : p ∈ s.slabs c := List.mem_append_left _ hp
    rw [(hslab p hmem).1]
    exact ⟨(h.onPartial p hp).1, fun he => hfresh p hmem ((h.onPartial p hp).2 he)⟩
  · intro p hp
    rw [hcache] at hp
    rw [(hslab p (List.mem_append_right _ hp)).1]
    exact h.onFull p hp
  · rw [hslabs]
    exact h.nodup
  · rw [hcache, hslabs]
    exact h.total
  · rw [hcache]
    exact h.partialCount
  · rw [hcache, hcount]
    exact h.inuse
  · intro a ha
    rw [hslabs, hcache]
    exact h.live a ((hlive a).mp ha)

/-- The operations below change one cache `c` and one page `p` that no other cache uses. -/
structure Local (s s' : State) (live live' : List (CacheId × ℕ)) (c : CacheId) (p : ℕ) : Prop where
  cache : ∀ c' ≠ c, s'.cache c' = s.cache c'
  slab : ∀ q ≠ p, s'.slab q = s.slab q
  mem : ∀ q ≠ p, SamePage s.mem s'.mem q
  others : ∀ c' ≠ c, (∀ a, (c', a) ∈ live' ↔ (c', a) ∈ live) ∧
    live'.countP (fun a => a.1 = c') = live.countP fun a => a.1 = c'
  livePage : ∀ a, a / PGSIZE ≠ p → ((c, a) ∈ live' ↔ (c, a) ∈ live)
  sizes : (s'.cache c).objsPerSlab = (s.cache c).objsPerSlab ∧
    (s'.cache c).objStride = (s.cache c).objStride ∧ (s'.cache c).objSize = (s.cache c).objSize
  active : (s'.cache c).active = (s.cache c).active

theorem Local.active_eq (hl : Local s s' live live' c p) (c' : CacheId) :
    (s'.cache c').active = (s.cache c').active := by
  by_cases hcc : c' = c
  · rw [hcc]
    exact hl.active
  · rw [hl.cache c' hcc]

theorem Local.caches (hl : Local s s' live live' c p) (h : ∀ c', CacheInv s live fresh c')
    (hp : ∀ c' ≠ c, p ∉ s.slabs c') (hfresh : ∀ q, fresh = some q → q = p)
    (hc : CacheInv s' live' fresh' c) : ∀ c', CacheInv s' live' fresh' c' := by
  intro c'
  by_cases hcc : c' = c
  · rw [hcc]
    exact hc
  · have hne : ∀ q ∈ s.slabs c', q ≠ p := fun q hq he => hp c' hcc (he ▸ hq)
    exact (h c').frame (hl.cache c' hcc) (fun q hq => ⟨hl.slab q (hne q hq), hl.mem q (hne q hq)⟩)
      (hl.others c' hcc).1 (hl.others c' hcc).2 fun q hq he => absurd (hfresh q he) (hne q hq)

/-- The other slabs of the cache. -/
theorem Local.slabRep (hl : Local s s' live live' c p) (h : CacheInv s live fresh c) {q : ℕ}
    (hq : q ∈ s.slabs c) (hne : q ≠ p) : ∃ is, SlabRep s' live' c q is := by
  obtain ⟨is, hrep⟩ := h.slabs q hq
  exact ⟨is, hrep.frame h (hl.slab q hne) hl.sizes.1 hl.sizes.2.1 (hl.mem q hne)
    fun a ha => hl.livePage a (ha ▸ hne)⟩

/-- A change of the chain of one slab, which may move between the two lists. -/
theorem Local.cacheInv (hl : Local s s' live live' c p) (hc : CacheInv s live fresh c)
    (hfresh : ∀ q, fresh = some q → q = p) (hp : p ∈ s.slabs c) (hrep : SlabRep s' live' c p is)
    (hperm : (s'.slabs c).Perm (s.slabs c))
    (hpart : ∀ q ∈ (s'.cache c).partialList, q ≠ p → q ∈ (s.cache c).partialList)
    (hfull : ∀ q ∈ (s'.cache c).fullList, q ≠ p → q ∈ (s.cache c).fullList)
    (hpart' : p ∈ (s'.cache c).partialList → 0 < (s'.slab p).freeCount ∧
      ((s'.slab p).freeCount = (s'.slab p).capacity → fresh' = some p))
    (hfull' : p ∈ (s'.cache c).fullList → (s'.slab p).freeCount = 0)
    (htotal : (s'.cache c).slabsTotal = (s.cache c).slabsTotal)
    (hcount : (s'.cache c).slabsPartial = (s'.cache c).partialList.length)
    (hinuse : (s'.cache c).inuseObjs = live'.countP fun a => a.1 = c)
    (hlive : ∀ a, (c, a) ∈ live' → (c, a) ∈ live ∨
      ∃ i < (s.cache c).objsPerSlab, a = slotAddr p (s.cache c).objStride i) :
    CacheInv s' live' fresh' c := by
  obtain ⟨h₁, h₂, h₃⟩ := hl.sizes
  refine ⟨?_, ?_, fun q hq => ?_, fun q hq => ?_, fun q hq => ?_, hperm.nodup_iff.mpr hc.nodup, ?_,
    hcount, hinuse, fun a ha => ?_⟩
  · rw [h₁, h₂, h₃]
    exact hc.size
  · rw [h₁, h₂]
    exact hc.room
  · by_cases hqp : q = p
    · exact ⟨is, hqp ▸ hrep⟩
    · exact hl.slabRep hc (hperm.mem_iff.mp hq) hqp
  · by_cases hqp : q = p
    · exact hqp ▸ hpart' (hqp ▸ hq)
    · rw [hl.slab q hqp]
      have := hc.onPartial q (hpart q hq hqp)
      exact ⟨this.1, fun he => absurd (hfresh q (this.2 he)) hqp⟩
  · by_cases hqp : q = p
    · exact hqp ▸ hfull' (hqp ▸ hq)
    · rw [hl.slab q hqp]
      exact hc.onFull q (hfull q hq hqp)
  · rw [htotal, hperm.length_eq]
    exact hc.total
  · rw [h₁, h₂]
    rcases hlive a ha with hold | hnew
    · obtain ⟨q, hq, hex⟩ := hc.live a hold
      exact ⟨q, hperm.mem_iff.mpr hq, hex⟩
    · exact ⟨p, hperm.mem_iff.mpr hp, hnew⟩

theorem Local.slabPages (hl : Local s s' live live' c p) :
    slabPages s' = {q | (∃ c' ≠ c, q ∈ s.slabs c') ∨ q ∈ s'.slabs c} := by
  ext q
  constructor
  · rintro ⟨c', hq⟩
    by_cases hcc : c' = c
    · exact Or.inr (hcc ▸ hq)
    · rw [State.slabs, hl.cache c' hcc] at hq
      exact Or.inl ⟨c', hcc, hq⟩
  · rintro (⟨c', hcc, hq⟩ | hq)
    · refine ⟨c', ?_⟩
      rw [State.slabs, hl.cache c' hcc]
      exact hq
    · exact ⟨c, hq⟩

theorem slabPages_eq (s : State) (c : CacheId) :
    Slub.slabPages s = {q | (∃ c' ≠ c, q ∈ s.slabs c') ∨ q ∈ s.slabs c} := by
  ext q
  constructor
  · rintro ⟨c', hq⟩
    by_cases hcc : c' = c
    · exact Or.inr (hcc ▸ hq)
    · exact Or.inl ⟨c', hcc, hq⟩
  · rintro (⟨c', -, hq⟩ | hq)
    · exact ⟨c', hq⟩
    · exact ⟨c, hq⟩

end Ucore.Slub
