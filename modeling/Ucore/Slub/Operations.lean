import Ucore.Slub.Invariant

/-!
# The operations of the object layer keep its invariant

An allocation is at most `slub_new_slab`, which puts a slab with all slots free on the empty partial
list, followed by `slubTakeSlot`; a free is `slubPutSlot` followed by the release of a slab that has
become free.  Each half is described by one theorem over `Inv`, the halves are joined by the
parameter `fresh`.

* **`slubCacheDoAlloc_spec`**: returns `NULL` without a change, or a new live object.
* **`slubCacheDoFree_spec`**: takes a live object back.  No assertion fails.
-/

namespace Ucore.Slub

open FreeList Extent Memory

variable {s s' : State} {live : List (CacheId × ℕ)} {c : CacheId} {p i j stride a : ℕ}
  {is ps : List ℕ} {fresh : Option ℕ} {lo hi : ℕ}

theorem slubAssert_pos {q : Prop} {inst : Decidable q} (h : q) : slubAssert q = some () := if_pos h

@[simp] theorem modifyCache_self (s : State) (c : CacheId) (f : Cache → Cache) :
    (s.modifyCache c f).cache c = f (s.cache c) := Function.update_self _ _ _

theorem modifyCache_of_ne (s : State) {c c' : CacheId} (f : Cache → Cache) (h : c' ≠ c) :
    (s.modifyCache c f).cache c' = s.cache c' := Function.update_of_ne h _ _

@[simp] theorem modifySlab_self (s : State) (p : ℕ) (f : Slab → Slab) :
    (s.modifySlab p f).slab p = f (s.slab p) := Function.update_self _ _ _

@[simp] theorem modifyCache_slab (s : State) (c : CacheId) (f : Cache → Cache) :
    (s.modifyCache c f).slab = s.slab := rfl

@[simp] theorem modifyCache_mem (s : State) (c : CacheId) (f : Cache → Cache) :
    (s.modifyCache c f).mem = s.mem := rfl

@[simp] theorem modifySlab_cache (s : State) (p : ℕ) (f : Slab → Slab) :
    (s.modifySlab p f).cache = s.cache := rfl

@[simp] theorem modifySlab_mem (s : State) (p : ℕ) (f : Slab → Slab) :
    (s.modifySlab p f).mem = s.mem := rfl

/-! ### A new slab -/

theorem slotAddr_succ : slotAddr p stride (i + 1) = slotAddr p stride i + stride := by
  rw [slotAddr, slotAddr, Nat.succ_mul]
  omega

theorem slotAddr_le (h : i ≤ j) : slotAddr p stride i ≤ slotAddr p stride j :=
  Nat.add_le_add_left (Nat.mul_le_mul_right stride h) _

/-- The loop of `slub_new_slab` links each slot to the next one and writes nowhere else. -/
theorem linkSlots_spec {capacity : ℕ} (hs : 2 ≤ stride) (hcap : capacity < 2 ^ 16) :
    ∀ k i m, i + k = capacity →
      (∀ j, i ≤ j → j < capacity → link (linkSlots p stride capacity k i m) p stride j =
        if j + 1 < capacity then j + 1 else SLUB_FREELIST_END) ∧
      ∀ a, a < slotAddr p stride i ∨ slotAddr p stride capacity ≤ a →
        linkSlots p stride capacity k i m a = m a
  | 0, i, m, hk => ⟨fun j h₁ h₂ => by omega, fun _ _ => rfl⟩
  | k + 1, i, m, hk => by
    have hnext : (if i + 1 < capacity then i + 1 else SLUB_FREELIST_END) < 2 ^ 16 := by
      have : SLUB_FREELIST_END < 2 ^ 16 := by decide
      split <;> omega
    obtain ⟨ih₁, ih₂⟩ := linkSlots_spec hs hcap k (i + 1) (write16 m (slotAddr p stride i)
      (if i + 1 < capacity then i + 1 else SLUB_FREELIST_END)) (by omega)
    rw [slotAddr_succ] at ih₂
    refine ⟨fun j h₁ h₂ => ?_, fun a ha => ?_⟩
    · rcases Nat.eq_or_lt_of_le h₁ with rfl | hlt
      · rw [linkSlots, link, read16_congr (ih₂ _ (Or.inl (by omega))) (ih₂ _ (Or.inl (by omega))),
          read16_write16 hnext]
      · exact ih₁ j hlt h₂
    · have hle : slotAddr p stride (i + 1) ≤ slotAddr p stride capacity := slotAddr_le (by omega)
      rw [slotAddr_succ] at hle
      rw [linkSlots, ih₂ a (by omega), write16_of_ne (by omega) (by omega)]

theorem CacheInv.small (h : CacheInv s live fresh c) (hobj : 0 < (s.cache c).objsPerSlab) :
    (s.cache c).objsPerSlab ≤ 2024 ∧ (s.cache c).objStride ≤ 4048 := by
  have hroom : (s.cache c).objsPerSlab * (s.cache c).objStride ≤ 4048 := h.room
  have h₁ := Nat.mul_le_mul_left (s.cache c).objsPerSlab (h.size hobj).1
  have h₂ := Nat.mul_le_mul_right (s.cache c).objStride hobj
  omega

/-- No live object lies in a page that holds no slab of its cache. -/
theorem CacheInv.not_live (h : CacheInv s live fresh c) (hp : p ∉ s.slabs c) (ha : a / PGSIZE = p)
    (hobj : 0 < (s.cache c).objsPerSlab) : (c, a) ∉ live := by
  intro hlive
  obtain ⟨q, hq, i, hi, rfl⟩ := h.live a hlive
  rw [slot_page h.room hi (h.size hobj).1] at ha
  exact hp (ha ▸ hq)

/-- The state after page `p` of the page layer has become a slab of cache `c`. -/
structure AddsSlab (s s' : State) (c : CacheId) (p : ℕ) : Prop where
  customUsed : s'.customUsed = s.customUsed
  slabNe : ∀ q ≠ p, s'.slab q = s.slab q
  slab : s'.slab p = ⟨SLUB_SLAB_MAGIC, c, p, (s.cache c).objsPerSlab, (s.cache c).objsPerSlab, 0,
    (s.cache c).objStride⟩
  mem : s'.mem = linkSlots p (s.cache c).objStride (s.cache c).objsPerSlab
    (s.cache c).objsPerSlab 0 s.mem
  cacheNe : ∀ c' ≠ c, s'.cache c' = s.cache c'
  cache : s'.cache c = { s.cache c with
    slabsTotal := (s.cache c).slabsTotal + 1
    slabsPartial := (s.cache c).slabsPartial + 1
    partialList := p :: (s.cache c).partialList }

/-- Bytes of another page are outside a slot. -/
theorem slot_other_page {q b n : ℕ} (hroom : n * stride ≤ PGSIZE - slabHeaderSize) (hil : i < n)
    (hq : q ≠ p) (h₁ : q * PGSIZE ≤ b) (h₂ : b < (q + 1) * PGSIZE) :
    b < slotAddr p stride i ∨ slotAddr p stride i + stride ≤ b := by
  obtain ⟨h₃, h₄⟩ := slot_in_page (p := p) hroom hil
  simp only [PGSIZE, slabHeaderSize] at h₁ h₂ h₃ h₄
  rcases Nat.lt_or_gt_of_ne hq with hlt | hgt <;> omega

/-- Bytes of another page are outside all slots. -/
theorem slots_other_page {q b n : ℕ} (hroom : n * stride ≤ PGSIZE - slabHeaderSize)
    (hq : q ≠ p) (h₁ : q * PGSIZE ≤ b) (h₂ : b < (q + 1) * PGSIZE) :
    b < slotAddr p stride 0 ∨ slotAddr p stride n ≤ b := by
  simp only [slotAddr, PGSIZE, slabHeaderSize] at *
  rcases Nat.lt_or_gt_of_ne hq with hlt | hgt <;> omega

theorem AddsSlab.isLocal (ht : AddsSlab s s' c p) (hc : CacheInv s live none c)
    (hobj : 0 < (s.cache c).objsPerSlab) : Local s s' live live c p := by
  obtain ⟨hcap, -⟩ := hc.small hobj
  refine ⟨ht.cacheNe, ht.slabNe, fun q hq a h₁ h₂ => ?_, fun c' _ => ⟨fun a => Iff.rfl, rfl⟩,
    fun a _ => Iff.rfl, ?_, by rw [ht.cache]⟩
  · rw [ht.mem]
    exact (linkSlots_spec (hc.size hobj).1 (by omega) _ 0 s.mem (Nat.zero_add _)).2 a
      (slots_other_page hc.room hq h₁ h₂)
  · rw [ht.cache]
    exact ⟨rfl, rfl, rfl⟩

theorem AddsSlab.slabRep (ht : AddsSlab s s' c p) (hc : CacheInv s live none c)
    (hobj : 0 < (s.cache c).objsPerSlab) (hnew : p ∉ s.slabs c) :
    SlabRep s' live c p (List.range' 0 (s.cache c).objsPerSlab) := by
  obtain ⟨hcap, -⟩ := hc.small hobj
  obtain ⟨h2, -⟩ := hc.size hobj
  refine ⟨?_, ?_, ?_, ?_, ?_, ?_, ?_, List.nodup_range', ?_, fun i hi => ?_, fun i hi => ?_⟩
  · rw [ht.slab]
  · rw [ht.slab]
  · rw [ht.slab]
  · rw [ht.slab, ht.cache]
  · rw [ht.slab, ht.cache]
  · rw [ht.cache]
    exact hobj
  · rw [ht.slab, ht.cache, ht.mem]
    have hlink := (linkSlots_spec (p := p) h2 (show (s.cache c).objsPerSlab < 2 ^ 16 by omega)
      _ 0 s.mem (Nat.zero_add _)).1
    have hle : (s.cache c).objsPerSlab ≤ SLUB_FREELIST_END := by
      rw [SLUB_FREELIST_END]
      omega
    have hchain := chain_range hle (fun i hi => hlink i (Nat.zero_le i) hi)
      (s.cache c).objsPerSlab 0 (Nat.zero_add _)
    rwa [if_pos hobj] at hchain
  · rw [ht.slab, List.length_range']
  · rw [ht.cache]
    simpa using hi
  · rw [ht.cache] at hi ⊢
    refine iff_of_false (hc.not_live hnew (slot_page hc.room hi h2) hobj) ?_
    simpa using hi

theorem AddsSlab.slabs (ht : AddsSlab s s' c p) : s'.slabs c = p :: s.slabs c := by
  rw [State.slabs, ht.cache]
  rfl

theorem AddsSlab.cacheInv (ht : AddsSlab s s' c p) (hc : CacheInv s live none c)
    (hobj : 0 < (s.cache c).objsPerSlab) (hnew : p ∉ s.slabs c)
    (hpart : (s.cache c).partialList = []) : CacheInv s' live (some p) c := by
  have hl := ht.isLocal hc hobj
  refine ⟨?_, ?_, fun q hq => ?_, fun q hq => ?_, fun q hq => ?_, ?_, ?_, ?_, ?_, fun a ha => ?_⟩
  · rw [ht.cache]
    exact hc.size
  · rw [ht.cache]
    exact hc.room
  · rw [ht.slabs] at hq
    by_cases hqp : q = p
    · exact ⟨_, hqp ▸ ht.slabRep hc hobj hnew⟩
    · exact hl.slabRep hc ((List.mem_cons.mp hq).resolve_left hqp) hqp
  · rw [ht.cache] at hq
    simp only [hpart, List.mem_singleton] at hq
    subst hq
    rw [ht.slab]
    exact ⟨hobj, fun _ => rfl⟩
  · rw [ht.cache] at hq
    have hqp : q ≠ p := fun he => hnew (he ▸ List.mem_append_right _ hq)
    rw [hl.slab q hqp]
    exact hc.onFull q hq
  · rw [ht.slabs]
    exact List.nodup_cons.mpr ⟨hnew, hc.nodup⟩
  · rw [ht.slabs, ht.cache, List.length_cons]
    exact congrArg (· + 1) hc.total
  · rw [ht.cache]
    simp only [List.length_cons, hc.partialCount]
  · rw [ht.cache]
    exact hc.inuse
  · rw [ht.slabs, ht.cache]
    obtain ⟨q, hq, hex⟩ := hc.live a ha
    exact ⟨q, List.mem_cons_of_mem p hq, hex⟩

/-- `slub_new_slab`: no page is left, or the new slab is alone on the partial list. -/
theorem slubNewSlab_spec (h : Inv lo hi s live none) (hobj : 0 < (s.cache c).objsPerSlab)
    (hpart : (s.cache c).partialList = []) :
    slubNewSlab c s = some (none, s) ∨ ∃ p s', slubNewSlab c s = some (some p, s') ∧
      Inv lo hi s' live (some p) ∧ (s'.cache c).partialList = [p] ∧
      s'.customUsed = s.customUsed := by
  obtain ⟨bs, hrep, hsparse, hcov⟩ := h.area
  obtain ⟨⟨r, area⟩, heq, halloc⟩ := allocPages_spec .slub hrep hsparse (k := 1) (by decide)
  have heq' : slubPageAlloc 1 s.area = some (r, area) := heq
  cases r with
  | none =>
    obtain ⟨rfl, -⟩ := halloc
    left
    simp only [slubNewSlab, slubAssert_pos hobj, heq', Option.bind_eq_bind, Option.bind_some]
  | some p =>
    right
    obtain ⟨-, hsub, bs', hrep', hsparse', hcov'⟩ := halloc
    have hfree : p ∈ Set.Ico lo hi \ slabPages s := hcov ▸ hsub ⟨le_rfl, Nat.lt_succ_self p⟩
    have hnew : ∀ c', p ∉ s.slabs c' := fun c' hp => hfree.2 ⟨c', hp⟩
    have hc := h.caches c
    have hmod : (s.cache c).objStride % 2 ^ 16 = (s.cache c).objStride := by
      have := (hc.small hobj).2
      exact Nat.mod_eq_of_lt (by omega)
    obtain ⟨s', hnewSlab, harea, ht⟩ : ∃ s', slubNewSlab c s = some (some p, s') ∧
        s'.area = area ∧ AddsSlab s s' c p := by
      refine ⟨_, by
        simp only [slubNewSlab, slubAssert_pos hobj, heq', Option.bind_eq_bind, Option.bind_some,
          hmod]
        rfl, ?_⟩
      refine ⟨rfl, rfl, fun q hq => Function.update_of_ne hq _ _, ?_, rfl,
        fun c' hcc => modifyCache_of_ne _ _ hcc, modifyCache_self _ _ _⟩
      refine (Function.update_self _ _ _).trans ?_
      rw [if_neg (by omega)]
    have hl := ht.isLocal hc hobj
    have hpages : slabPages s' = insert p (slabPages s) := by
      rw [hl.slabPages, slabPages_eq s c, ht.slabs]
      ext q
      simp only [Set.mem_ofPred_eq, Set.mem_insert_iff, List.mem_cons]
      exact or_left_comm
    refine ⟨p, s', hnewSlab, ⟨hl.caches h.caches (fun c' _ => hnew c') (fun q hq => nomatch hq)
      (ht.cacheInv hc hobj (hnew c) hpart), h.nodup, ⟨bs', harea ▸ hrep', hsparse', ?_⟩, ?_, ?_,
      fun i hi => ?_⟩, by rw [ht.cache, hpart], ht.customUsed⟩
    · rw [hcov', hcov, hpages]
      ext q
      have hqp : p ≤ q ∧ q < p + 1 ↔ q = p := by omega
      simp only [Set.mem_sdiff, Set.mem_Ico, Set.mem_insert_iff, hqp]
      tauto
    · rw [hpages]
      exact Set.insert_subset hfree.1 h.inside
    · rw [ht.customUsed]
      exact h.unused
    · rw [ht.customUsed]
      exact h.active i ((hl.active_eq _).symm.trans hi)

/-! ### Taking a slot -/

/-- The state after slot `i` has been taken from the slab in page `p`, the first on the partial list
`p :: ps`; `n` slots of the slab remain free. -/
structure TakesSlot (s s' : State) (c : CacheId) (p i n : ℕ) (ps : List ℕ) : Prop where
  area : s'.area = s.area
  customUsed : s'.customUsed = s.customUsed
  slabNe : ∀ q ≠ p, s'.slab q = s.slab q
  slab : s'.slab p = { s.slab p with
    freeHead := link s.mem p (s.cache c).objStride i
    freeCount := n }
  mem : s'.mem = memset s.mem (slotAddr p (s.cache c).objStride i) 0 (s.cache c).objSize
  cacheNe : ∀ c' ≠ c, s'.cache c' = s.cache c'
  cache : s'.cache c = { s.cache c with
    inuseObjs := (s.cache c).inuseObjs + 1
    partialList := if n = 0 then ps else p :: ps
    fullList := if n = 0 then p :: (s.cache c).fullList else (s.cache c).fullList
    slabsPartial := if n = 0 then (s.cache c).slabsPartial - 1 else (s.cache c).slabsPartial }

variable {n : ℕ}

theorem TakesSlot.sizes (ht : TakesSlot s s' c p i n ps) :
    (s'.cache c).objsPerSlab = (s.cache c).objsPerSlab ∧
      (s'.cache c).objStride = (s.cache c).objStride ∧
      (s'.cache c).objSize = (s.cache c).objSize := by
  rw [ht.cache]
  exact ⟨rfl, rfl, rfl⟩

theorem TakesSlot.isLocal (ht : TakesSlot s s' c p i n ps) (hc : CacheInv s live fresh c)
    (hil : i < (s.cache c).objsPerSlab) :
    Local s s' live ((c, slotAddr p (s.cache c).objStride i) :: live) c p := by
  obtain ⟨h2, hsize⟩ := hc.size (by omega)
  refine ⟨ht.cacheNe, ht.slabNe, fun q hq b h₁ h₂ => ?_, fun c' hcc => ⟨fun b => ?_, ?_⟩,
    fun b hb => ?_, ht.sizes, by rw [ht.cache]⟩
  · rw [ht.mem]
    refine memset_of_not ?_
    rcases slot_other_page hc.room hil hq h₁ h₂ with h' | h' <;> omega
  · simp [hcc]
  · exact List.countP_cons_of_neg (by simpa using Ne.symm hcc)
  · have hne : b ≠ slotAddr p (s.cache c).objStride i := fun he =>
      hb (he ▸ slot_page hc.room hil h2)
    simp [hne]

theorem TakesSlot.slabRep (ht : TakesSlot s s' c p i is.length ps) (hc : CacheInv s live fresh c)
    (hrep : SlabRep s live c p (i :: is)) :
    SlabRep s' ((c, slotAddr p (s.cache c).objStride i) :: live) c p is := by
  obtain ⟨h2, hsize⟩ := hc.size hrep.pos
  obtain ⟨hcap, hstr, -⟩ := ht.sizes
  obtain ⟨-, -, hchain⟩ := hrep.chain
  obtain ⟨hnot, hnodup⟩ := List.nodup_cons.mp hrep.nodup
  refine ⟨?_, ?_, ?_, ?_, ?_, ?_, ?_, hnodup, ?_, fun j hj => ?_, fun j hj => ?_⟩
  · rw [ht.slab]
    exact hrep.magic
  · rw [ht.slab]
    exact hrep.cache
  · rw [ht.slab]
    exact hrep.page
  · rw [ht.slab, hcap]
    exact hrep.capacity
  · rw [ht.slab, hstr]
    exact hrep.stride
  · rw [hcap]
    exact hrep.pos
  · rw [ht.slab, hstr]
    refine hchain.congr fun j hj => ?_
    have hji : i ≠ j := fun he => hnot (he ▸ hj)
    rw [ht.mem]
    refine read16_congr (memset_of_not ?_) (memset_of_not ?_) <;>
      rcases slot_apart p (s.cache c).objStride hji with h' | h' <;> omega
  · rw [ht.slab]
  · rw [hcap]
    exact hrep.bound j (List.mem_cons_of_mem i hj)
  · rw [hcap] at hj
    rw [hstr]
    by_cases hji : j = i
    · subst hji
      exact iff_of_true List.mem_cons_self hnot
    · have hne : slotAddr p (s.cache c).objStride j ≠ slotAddr p (s.cache c).objStride i :=
        fun he => hji (slot_inj h2 he)
      have := hrep.live j hj
      simp only [List.mem_cons, hji, false_or] at this
      simpa [hne] using this

theorem TakesSlot.perm (ht : TakesSlot s s' c p i n ps)
    (hpart : (s.cache c).partialList = p :: ps) : (s'.slabs c).Perm (s.slabs c) := by
  rw [State.slabs, State.slabs, ht.cache, hpart]
  by_cases h0 : n = 0
  · simp only [if_pos h0]
    exact List.perm_middle
  · simp only [if_neg h0]
    exact List.Perm.refl _

theorem TakesSlot.cacheInv (ht : TakesSlot s s' c p i is.length ps) (hc : CacheInv s live fresh c)
    (hrep : SlabRep s live c p (i :: is)) (hfresh : ∀ q, fresh = some q → q = p)
    (hpart : (s.cache c).partialList = p :: ps) :
    CacheInv s' ((c, slotAddr p (s.cache c).objStride i) :: live) none c := by
  have hil := hrep.bound i List.mem_cons_self
  have hcount : (s.slab p).freeCount = is.length + 1 := hrep.count
  have hpp : p ∈ (s.cache c).partialList := by rw [hpart]; exact List.mem_cons_self
  have hnotFull : p ∉ (s.cache c).fullList := fun hf => by
    have := hc.onFull p hf
    omega
  have hnodupPart : (p :: ps).Nodup := hpart ▸ (List.nodup_append.mp hc.nodup).1
  refine (ht.isLocal hc hil).cacheInv hc hfresh (List.mem_append_left _ hpp) (ht.slabRep hc hrep)
    (ht.perm hpart) (fun q hq hqp => ?_) (fun q hq hqp => ?_) (fun hq => ?_) (fun hq => ?_) ?_ ?_ ?_
    fun b hb => ?_
  · rw [ht.cache] at hq
    rw [hpart]
    by_cases h0 : is.length = 0
    · simp only [if_pos h0] at hq
      exact List.mem_cons_of_mem p hq
    · simpa only [if_neg h0] using hq
  · rw [ht.cache] at hq
    by_cases h0 : is.length = 0
    · simp only [if_pos h0] at hq
      exact (List.mem_cons.mp hq).resolve_left hqp
    · simpa only [if_neg h0] using hq
  · rw [ht.cache] at hq
    have h0 : is.length ≠ 0 := fun h0 => by
      simp only [if_pos h0] at hq
      exact (List.nodup_cons.mp hnodupPart).1 hq
    rw [ht.slab]
    refine ⟨Nat.pos_of_ne_zero h0, fun he => ?_⟩
    have := hrep.freeCount_le
    rw [hcount, ← hrep.capacity] at this
    simp only at he
    omega
  · rw [ht.cache] at hq
    rw [ht.slab]
    by_contra h0
    simp only [if_neg h0] at hq
    exact hnotFull hq
  · rw [ht.cache]
  · rw [ht.cache]
    have := hc.partialCount
    rw [hpart, List.length_cons] at this
    by_cases h0 : is.length = 0
    · simp only [if_pos h0]
      omega
    · simp only [if_neg h0, List.length_cons]
      omega
  · rw [ht.cache, List.countP_cons_of_pos (by simp)]
    exact congrArg (· + 1) hc.inuse
  · rcases List.mem_cons.mp hb with he | hb
    · exact Or.inr ⟨i, hil, (Prod.mk.inj he).2⟩
    · exact Or.inl hb

theorem TakesSlot.inv (ht : TakesSlot s s' c p i is.length ps) (h : Inv lo hi s live fresh)
    (hrep : SlabRep s live c p (i :: is)) (hfresh : ∀ q, fresh = some q → q = p)
    (hpart : (s.cache c).partialList = p :: ps)
    (hused : ∀ i, c = .custom i → s.customUsed i = true) :
    Inv lo hi s' ((c, slotAddr p (s.cache c).objStride i) :: live) none := by
  have hc := h.caches c
  have hil := hrep.bound i List.mem_cons_self
  have hl := ht.isLocal hc hil
  have hp : p ∈ s.slabs c := by
    rw [State.slabs, hpart]
    exact List.mem_cons_self
  have hpages : slabPages s' = slabPages s := by
    rw [hl.slabPages, slabPages_eq s c]
    ext q
    simp only [Set.mem_ofPred_eq, (ht.perm hpart).mem_iff]
  have hnew : (c, slotAddr p (s.cache c).objStride i) ∉ live := fun hlive =>
    (hrep.live i hil).mp hlive List.mem_cons_self
  refine ⟨hl.caches h.caches (fun c' hcc hp' => hcc (h.cache_unique hp' hp)) hfresh
    (ht.cacheInv hc hrep hfresh hpart), List.nodup_cons.mpr ⟨hnew, h.nodup⟩, ?_, ?_,
    fun k hk b hb => ?_, fun k hk => ?_⟩
  · rw [ht.area, hpages]
    exact h.area
  · rw [hpages]
    exact h.inside
  · rw [ht.customUsed] at hk
    rcases List.mem_cons.mp hb with he | hb
    · have := hused k (Prod.mk.inj he).1.symm
      rw [hk] at this
      exact absurd this (by decide)
    · exact h.unused k hk b hb
  · rw [ht.customUsed]
    exact h.active k ((hl.active_eq _).symm.trans hk)

/-- `slub_cache_do_alloc` on a cache with a partial slab. -/
theorem slubTakeSlot_spec (h : Inv lo hi s live fresh) (hfresh : ∀ q, fresh = some q → q = p)
    (hpart : (s.cache c).partialList = p :: ps)
    (hused : ∀ i, c = .custom i → s.customUsed i = true) :
    ∃ a s', slubTakeSlot c s = some (some a, s') ∧ Inv lo hi s' ((c, a) :: live) none := by
  have hc := h.caches c
  have hpp : p ∈ (s.cache c).partialList := by rw [hpart]; exact List.mem_cons_self
  obtain ⟨hfree, -⟩ := hc.onPartial p hpp
  obtain ⟨is, hrep⟩ := hc.slabs p (List.mem_append_left _ hpp)
  obtain ⟨i, is, rfl⟩ : ∃ i is', is = i :: is' := List.exists_cons_of_ne_nil fun he => by
    rw [hrep.count, he] at hfree
    exact absurd hfree (by decide)
  have hhead : (s.slab p).freeHead = i := hrep.chain.1
  have hcount : (s.slab p).freeCount = is.length + 1 := hrep.count
  have hnotFull : p ∉ (s.cache c).fullList := fun hf => by
    have := hc.onFull p hf
    omega
  suffices hsuff : ∃ s', slubTakeSlot c s = some (some (slotAddr p (s.cache c).objStride i), s') ∧
      TakesSlot s s' c p i is.length ps by
    obtain ⟨s', heq, ht⟩ := hsuff
    exact ⟨_, s', heq, ht.inv h hrep hfresh hpart hused⟩
  have herase : (s.cache c).fullList.erase p = (s.cache c).fullList :=
    List.erase_of_not_mem hnotFull
  by_cases h0 : is.length = 0
  · have hpos : (s.cache c).slabsPartial > 0 := by
      rw [hc.partialCount, hpart]
      exact Nat.succ_pos _
    refine ⟨_, by
      simp only [slubTakeSlot, hpart, slubAssert_pos (Nat.succ_pos is.length), slabListDel, Option.bind_eq_bind,
        Option.bind_some, modifyCache_slab, modifyCache_mem, modifySlab_self, modifySlab_mem,
        modifySlab_cache, modifyCache_self, hcount, Nat.add_sub_cancel, if_pos h0,
        slubAssert_pos hpos, hrep.stride, hhead]
      rfl, ?_⟩
    refine ⟨rfl, rfl, fun q hq => Function.update_of_ne hq _ _, ?_, ?_, fun c' hcc => ?_, ?_⟩
    · exact (Function.update_self _ _ _).trans (by rw [hcount, Nat.add_sub_cancel])
    · rfl
    · simp only [modifyCache_of_ne _ _ hcc, modifySlab_cache]
    · simp only [modifyCache_self, modifySlab_cache, hpart, herase, if_pos h0,
        List.erase_cons_head]
  · refine ⟨_, by
      simp only [slubTakeSlot, hpart, slubAssert_pos (Nat.succ_pos is.length), Option.bind_eq_bind,
        Option.bind_some, modifyCache_slab, modifyCache_mem, modifySlab_self, modifySlab_mem,
        modifySlab_cache, modifyCache_self, hcount, Nat.add_sub_cancel, if_neg h0,
        hrep.stride, hhead]
      rfl, ?_⟩
    refine ⟨rfl, rfl, fun q hq => Function.update_of_ne hq _ _, ?_, ?_, fun c' hcc => ?_, ?_⟩
    · exact (Function.update_self _ _ _).trans (by rw [hcount, Nat.add_sub_cancel])
    · rfl
    · simp only [modifyCache_of_ne _ _ hcc, modifySlab_cache]
    · simp only [modifyCache_self, modifySlab_cache, hpart, if_neg h0]

/-! ### Putting a slot back -/

/-- The state after slot `i` has been put back on the chain of the slab in page `p`, which had `n`
free slots.  A full slab moves to the partial list. -/
structure PutsSlot (s s' : State) (c : CacheId) (p i n : ℕ) : Prop where
  area : s'.area = s.area
  customUsed : s'.customUsed = s.customUsed
  slabNe : ∀ q ≠ p, s'.slab q = s.slab q
  slab : s'.slab p = { s.slab p with freeHead := i, freeCount := n + 1 }
  mem : s'.mem = write16 s.mem (slotAddr p (s.cache c).objStride i) (s.slab p).freeHead
  cacheNe : ∀ c' ≠ c, s'.cache c' = s.cache c'
  cache : s'.cache c = { s.cache c with
    inuseObjs := (s.cache c).inuseObjs - 1
    partialList := if n = 0 then p :: (s.cache c).partialList else (s.cache c).partialList
    fullList := if n = 0 then (s.cache c).fullList.erase p else (s.cache c).fullList
    slabsPartial := if n = 0 then (s.cache c).slabsPartial + 1 else (s.cache c).slabsPartial }

theorem PutsSlot.sizes (ht : PutsSlot s s' c p i n) :
    (s'.cache c).objsPerSlab = (s.cache c).objsPerSlab ∧
      (s'.cache c).objStride = (s.cache c).objStride ∧
      (s'.cache c).objSize = (s.cache c).objSize := by
  rw [ht.cache]
  exact ⟨rfl, rfl, rfl⟩

theorem countP_erase_add {x : CacheId × ℕ} (hx : x ∈ live) (c : CacheId) :
    (live.erase x).countP (fun a => a.1 = c) + (if x.1 = c then 1 else 0) =
      live.countP fun a => a.1 = c := by
  rw [(List.perm_cons_erase hx).countP_eq, List.countP_cons]
  simp only [decide_eq_true_eq]

theorem PutsSlot.isLocal (ht : PutsSlot s s' c p i n) (hc : CacheInv s live fresh c)
    (hil : i < (s.cache c).objsPerSlab)
    (hlive : (c, slotAddr p (s.cache c).objStride i) ∈ live) :
    Local s s' live (live.erase (c, slotAddr p (s.cache c).objStride i)) c p := by
  obtain ⟨h2, hsize⟩ := hc.size (by omega)
  refine ⟨ht.cacheNe, ht.slabNe, fun q hq b h₁ h₂ => ?_, fun c' hcc => ⟨fun b => ?_, ?_⟩,
    fun b hb => ?_, ht.sizes, by rw [ht.cache]⟩
  · rw [ht.mem]
    refine write16_of_ne ?_ ?_ <;>
      rcases slot_other_page hc.room hil hq h₁ h₂ with h' | h' <;> omega
  · exact List.mem_erase_of_ne fun he => hcc (Prod.mk.inj he).1
  · have := countP_erase_add hlive c'
    rwa [if_neg (Ne.symm hcc), Nat.add_zero] at this
  · refine List.mem_erase_of_ne fun he => hb ?_
    rw [(Prod.mk.inj he).2]
    exact slot_page hc.room hil h2

theorem PutsSlot.slabRep (ht : PutsSlot s s' c p i is.length) (hc : CacheInv s live fresh c)
    (hnodup : live.Nodup) (hrep : SlabRep s live c p is) (hil : i < (s.cache c).objsPerSlab)
    (hlive : (c, slotAddr p (s.cache c).objStride i) ∈ live) :
    SlabRep s' (live.erase (c, slotAddr p (s.cache c).objStride i)) c p (i :: is) := by
  obtain ⟨h2, hsize⟩ := hc.size hrep.pos
  obtain ⟨hcap, hstr, -⟩ := ht.sizes
  have hsmall := (hc.small hrep.pos).1
  have hnot : i ∉ is := (hrep.live i hil).mp hlive
  have hhead : (s.slab p).freeHead < 2 ^ 16 := by
    cases hi : is with
    | nil =>
      have hend := hrep.chain
      rw [hi] at hend
      rw [show (s.slab p).freeHead = SLUB_FREELIST_END from hend]
      decide
    | cons k ks =>
      have hbound := hrep.bound k (by rw [hi]; exact List.mem_cons_self)
      have hchain := hrep.chain
      rw [hi] at hchain
      rw [hchain.1]
      omega
  refine ⟨?_, ?_, ?_, ?_, ?_, ?_, ?_, List.nodup_cons.mpr ⟨hnot, hrep.nodup⟩, ?_, fun j hj => ?_,
    fun j hj => ?_⟩
  · rw [ht.slab]
    exact hrep.magic
  · rw [ht.slab]
    exact hrep.cache
  · rw [ht.slab]
    exact hrep.page
  · rw [ht.slab, hcap]
    exact hrep.capacity
  · rw [ht.slab, hstr]
    exact hrep.stride
  · rw [hcap]
    exact hrep.pos
  · rw [ht.slab, hstr]
    refine ⟨rfl, by rw [SLUB_FREELIST_END]; omega, ?_⟩
    rw [link, ht.mem, read16_write16 hhead]
    refine hrep.chain.congr fun j hj => ?_
    have hji : i ≠ j := fun he => hnot (he ▸ hj)
    refine read16_congr (write16_of_ne ?_ ?_) (write16_of_ne ?_ ?_) <;>
      rcases slot_apart p (s.cache c).objStride hji with h' | h' <;> omega
  · rw [ht.slab, List.length_cons]
  · rw [hcap]
    rcases List.mem_cons.mp hj with rfl | hj
    · exact hil
    · exact hrep.bound j hj
  · rw [hcap] at hj
    rw [hstr]
    by_cases hji : j = i
    · subst hji
      refine iff_of_false (fun hmem => ?_) fun h => h List.mem_cons_self
      exact absurd rfl (hnodup.mem_erase_iff.mp hmem).1
    · rw [List.mem_erase_of_ne fun he => hji (slot_inj h2 (Prod.mk.inj he).2), hrep.live j hj]
      simp [hji]

/-- The slab is on the full list exactly when it has no free slot. -/
theorem CacheInv.mem_full_iff (hc : CacheInv s live fresh c) (hp : p ∈ s.slabs c) :
    p ∈ (s.cache c).fullList ↔ (s.slab p).freeCount = 0 := by
  constructor
  · exact hc.onFull p
  · intro h0
    rcases List.mem_append.mp hp with hp | hp
    · have := (hc.onPartial p hp).1
      omega
    · exact hp

theorem PutsSlot.perm (ht : PutsSlot s s' c p i n) (hc : CacheInv s live fresh c)
    (hp : p ∈ s.slabs c) (hn : (s.slab p).freeCount = n) : (s'.slabs c).Perm (s.slabs c) := by
  rw [State.slabs, State.slabs, ht.cache]
  by_cases h0 : n = 0
  · simp only [if_pos h0]
    have hfull := (hc.mem_full_iff hp).mpr (hn.trans h0)
    exact List.perm_middle.symm.trans
      ((List.perm_cons_erase hfull).symm.append_left (s.cache c).partialList)
  · simp only [if_neg h0]
    exact List.Perm.refl _

theorem PutsSlot.cacheInv (ht : PutsSlot s s' c p i is.length) (hc : CacheInv s live none c)
    (hnodup : live.Nodup) (hp : p ∈ s.slabs c) (hrep : SlabRep s live c p is)
    (hil : i < (s.cache c).objsPerSlab)
    (hlive : (c, slotAddr p (s.cache c).objStride i) ∈ live) :
    CacheInv s' (live.erase (c, slotAddr p (s.cache c).objStride i)) (some p) c := by
  have hfullNodup : (s.cache c).fullList.Nodup := (List.nodup_append.mp hc.nodup).2.1
  refine (ht.isLocal hc hil hlive).cacheInv hc (fun q hq => nomatch hq) hp
    (ht.slabRep hc hnodup hrep hil hlive) (ht.perm hc hp hrep.count) (fun q hq hqp => ?_)
    (fun q hq hqp => ?_) (fun _ => ?_) (fun hq => ?_) ?_ ?_ ?_ fun b hb => ?_
  · rw [ht.cache] at hq
    by_cases h0 : is.length = 0
    · simp only [if_pos h0] at hq
      exact (List.mem_cons.mp hq).resolve_left hqp
    · simpa only [if_neg h0] using hq
  · rw [ht.cache] at hq
    by_cases h0 : is.length = 0
    · simp only [if_pos h0] at hq
      exact List.mem_of_mem_erase hq
    · simpa only [if_neg h0] using hq
  · rw [ht.slab]
    exact ⟨Nat.succ_pos _, fun _ => rfl⟩
  · rw [ht.cache] at hq
    by_cases h0 : is.length = 0
    · simp only [if_pos h0] at hq
      exact absurd rfl (hfullNodup.mem_erase_iff.mp hq).1
    · simp only [if_neg h0] at hq
      have := hc.onFull p hq
      rw [hrep.count] at this
      exact absurd this h0
  · rw [ht.cache]
  · rw [ht.cache]
    by_cases h0 : is.length = 0
    · simp only [if_pos h0, List.length_cons, hc.partialCount]
    · simp only [if_neg h0, hc.partialCount]
  · rw [ht.cache]
    have h₁ := countP_erase_add hlive c
    have h₂ := hc.inuse
    rw [if_pos rfl] at h₁
    simp only
    omega
  · exact Or.inl (List.mem_of_mem_erase hb)

theorem PutsSlot.inv (ht : PutsSlot s s' c p i is.length) (h : Inv lo hi s live none)
    (hp : p ∈ s.slabs c) (hrep : SlabRep s live c p is) (hil : i < (s.cache c).objsPerSlab)
    (hlive : (c, slotAddr p (s.cache c).objStride i) ∈ live) :
    Inv lo hi s' (live.erase (c, slotAddr p (s.cache c).objStride i)) (some p) := by
  have hc := h.caches c
  have hl := ht.isLocal hc hil hlive
  have hpages : slabPages s' = slabPages s := by
    rw [hl.slabPages, slabPages_eq s c]
    ext q
    simp only [Set.mem_ofPred_eq, (ht.perm hc hp hrep.count).mem_iff]
  refine ⟨hl.caches h.caches (fun c' hcc hp' => hcc (h.cache_unique hp' hp))
    (fun q hq => nomatch hq) (ht.cacheInv hc h.nodup hp hrep hil hlive), h.nodup.erase _, ?_, ?_,
    fun k hk b hb => ?_, fun k hk => ?_⟩
  · rw [ht.area, hpages]
    exact h.area
  · rw [hpages]
    exact h.inside
  · rw [ht.customUsed] at hk
    exact h.unused k hk b (List.mem_of_mem_erase hb)
  · rw [ht.customUsed]
    exact h.active k ((hl.active_eq _).symm.trans hk)

theorem slubPutSlot_spec (hc : CacheInv s live none c)
    (hrep : SlabRep s live c p is) (hil : i < (s.cache c).objsPerSlab)
    (hlive : (c, slotAddr p (s.cache c).objStride i) ∈ live) :
    ∃ s', slubPutSlot c p (slotAddr p (s.cache c).objStride i) s = some s' ∧
      PutsSlot s s' c p i is.length := by
  obtain ⟨h2, -⟩ := hc.size hrep.pos
  have hsmall := hc.small hrep.pos
  have hoffset : (slotAddr p (s.cache c).objStride i + 2 ^ 64 -
      slotAddr p (s.cache c).objStride 0) % 2 ^ 64 = i * (s.cache c).objStride := by
    have hmul : i * (s.cache c).objStride ≤ 2024 * 4048 :=
      Nat.mul_le_mul (by omega) hsmall.2
    rw [show slotAddr p (s.cache c).objStride i + 2 ^ 64 - slotAddr p (s.cache c).objStride 0 =
      i * (s.cache c).objStride + 2 ^ 64 by simp only [slotAddr]; omega, Nat.add_mod_right]
    exact Nat.mod_eq_of_lt (by omega)
  have hmod : i * (s.cache c).objStride % (s.cache c).objStride = 0 := Nat.mul_mod_left _ _
  have hidx : i * (s.cache c).objStride / (s.cache c).objStride % 2 ^ 16 = i := by
    rw [Nat.mul_div_cancel _ (by omega)]
    exact Nat.mod_eq_of_lt (by omega)
  have hinuse : (s.cache c).inuseObjs > 0 := by
    rw [hc.inuse]
    exact List.countP_pos_iff.mpr ⟨_, hlive, by simp⟩
  by_cases h0 : is.length = 0
  · have hnotPart : p ∉ (s.cache c).partialList := fun hpart => by
      have := (hc.onPartial p hpart).1
      rw [hrep.count] at this
      omega
    refine ⟨_, by
      simp only [slubPutSlot, hrep.stride, hoffset, slubAssert_pos hmod, slabListDel,
        Option.bind_eq_bind, Option.bind_some, modifyCache_slab, modifySlab_self, modifySlab_cache,
        slubAssert_pos hinuse, hrep.count, hidx, h0, if_true]
      rfl, ?_⟩
    refine ⟨rfl, rfl, fun q hq => Function.update_of_ne hq _ _, ?_, rfl, fun c' hcc => ?_, ?_⟩
    · exact (Function.update_self _ _ _).trans (by rw [hrep.count])
    · simp only [modifyCache_of_ne _ _ hcc, modifySlab_cache]
    · simp only [modifyCache_self, modifySlab_cache, if_pos h0,
        List.erase_of_not_mem hnotPart]
  · have h1 : is.length + 1 ≠ 1 := by omega
    refine ⟨_, by
      simp only [slubPutSlot, hrep.stride, hoffset, slubAssert_pos hmod,
        Option.bind_eq_bind, Option.bind_some, modifyCache_slab, modifySlab_self, modifySlab_cache,
        slubAssert_pos hinuse, hrep.count, hidx, if_neg h1]
      rfl, ?_⟩
    refine ⟨rfl, rfl, fun q hq => Function.update_of_ne hq _ _, ?_, rfl, fun c' hcc => ?_, ?_⟩
    · exact (Function.update_self _ _ _).trans (by rw [hrep.count])
    · simp only [modifyCache_of_ne _ _ hcc, modifySlab_cache]
    · simp only [modifyCache_self, modifySlab_cache, if_neg h0]

/-! ### Releasing a slab -/

/-- The state after the slab in page `p`, all of whose slots were free, has gone back to the page
layer. -/
structure DropsSlab (s s' : State) (c : CacheId) (p : ℕ) : Prop where
  customUsed : s'.customUsed = s.customUsed
  slabNe : ∀ q ≠ p, s'.slab q = s.slab q
  mem : s'.mem = s.mem
  cacheNe : ∀ c' ≠ c, s'.cache c' = s.cache c'
  cache : s'.cache c = { s.cache c with
    slabsTotal := (s.cache c).slabsTotal - 1
    slabsPartial := (s.cache c).slabsPartial - 1
    partialList := (s.cache c).partialList.erase p
    fullList := (s.cache c).fullList.erase p }

theorem DropsSlab.isLocal (ht : DropsSlab s s' c p) : Local s s' live live c p := by
  refine ⟨ht.cacheNe, ht.slabNe, fun q _ b _ _ => by rw [ht.mem], fun c' _ => ⟨fun b => Iff.rfl, rfl⟩,
    fun b _ => Iff.rfl, ?_, by rw [ht.cache]⟩
  rw [ht.cache]
  exact ⟨rfl, rfl, rfl⟩

/-- A slab all of whose slots are free holds no live object. -/
theorem SlabRep.not_live (hrep : SlabRep s live c p is)
    (hall : (s.slab p).freeCount = (s.cache c).objsPerSlab) (hil : i < (s.cache c).objsPerSlab) :
    (c, slotAddr p (s.cache c).objStride i) ∉ live := by
  intro hlive
  have hnot := (hrep.live i hil).mp hlive
  have hbound : ∀ j ∈ i :: is, j < (s.cache c).objsPerSlab := by
    intro j hj
    rcases List.mem_cons.mp hj with rfl | hj
    · exact hil
    · exact hrep.bound j hj
  have := nodup_length_le (List.nodup_cons.mpr ⟨hnot, hrep.nodup⟩) hbound
  rw [List.length_cons, ← hrep.count] at this
  omega

theorem DropsSlab.mem_slabs (ht : DropsSlab s s' c p) (hc : CacheInv s live fresh c) {q : ℕ} :
    q ∈ s'.slabs c ↔ q ≠ p ∧ q ∈ s.slabs c := by
  obtain ⟨h₁, h₂, -⟩ := List.nodup_append.mp hc.nodup
  rw [State.slabs, State.slabs, ht.cache, List.mem_append, List.mem_append, h₁.mem_erase_iff,
    h₂.mem_erase_iff]
  tauto

theorem DropsSlab.cacheInv (ht : DropsSlab s s' c p) (hc : CacheInv s live (some p) c)
    (hp : p ∈ (s.cache c).partialList) (hrep : SlabRep s live c p is)
    (hall : (s.slab p).freeCount = (s.cache c).objsPerSlab) : CacheInv s' live none c := by
  have hl : Local s s' live live c p := ht.isLocal
  obtain ⟨h₁, h₂, h₃⟩ := hl.sizes
  obtain ⟨hpartNodup, hfullNodup, -⟩ := List.nodup_append.mp hc.nodup
  have hnotFull : p ∉ (s.cache c).fullList := fun hf => by
    have := hc.onFull p hf
    have := hrep.pos
    omega
  have hlength := List.length_erase_of_mem hp
  have hpos := List.length_pos_of_mem hp
  refine ⟨?_, ?_, fun q hq => ?_, fun q hq => ?_, fun q hq => ?_, ?_, ?_, ?_, ?_, fun a ha => ?_⟩
  · rw [h₁, h₂, h₃]
    exact hc.size
  · rw [h₁, h₂]
    exact hc.room
  · obtain ⟨hqp, hq⟩ := (ht.mem_slabs hc).mp hq
    exact hl.slabRep hc hq hqp
  · rw [ht.cache] at hq
    obtain ⟨hqp, hq⟩ := hpartNodup.mem_erase_iff.mp hq
    rw [hl.slab q hqp]
    have := hc.onPartial q hq
    exact ⟨this.1, fun he => absurd (Option.some.inj (this.2 he)).symm hqp⟩
  · rw [ht.cache] at hq
    obtain ⟨hqp, hq⟩ := hfullNodup.mem_erase_iff.mp hq
    rw [hl.slab q hqp]
    exact hc.onFull q hq
  · rw [State.slabs, ht.cache]
    exact hc.nodup.sublist (List.erase_sublist.append List.erase_sublist)
  · have := hc.total
    rw [State.slabs, List.length_append] at this ⊢
    rw [ht.cache, List.erase_of_not_mem hnotFull, hlength]
    simp only
    omega
  · rw [ht.cache]
    simp only [hlength, hc.partialCount]
  · rw [ht.cache]
    exact hc.inuse
  · rw [h₁, h₂]
    obtain ⟨q, hq, i, hil, rfl⟩ := hc.live a ha
    refine ⟨q, (ht.mem_slabs hc).mpr ⟨?_, hq⟩, i, hil, rfl⟩
    rintro rfl
    exact hrep.not_live hall hil ha

/-- The part of `slub_cache_do_free` for a slab that has become free. -/
theorem releaseSlab_spec (hsize : hi - lo + 1 < 2 ^ 32) (h : Inv lo hi s live (some p))
    (hp : p ∈ (s.cache c).partialList) (hall : (s.slab p).freeCount = (s.slab p).capacity) :
    (s.cache c).slabsPartial > 0 ∧ ∃ s', slubReleaseSlab p ((slabListDel c p s).modifyCache c
        fun ch => { ch with slabsPartial := ch.slabsPartial - 1 }) = some s' ∧
      Inv lo hi s' live none := by
  have hc := h.caches c
  have hps : p ∈ s.slabs c := List.mem_append_left _ hp
  obtain ⟨is, hrep⟩ := hc.slabs p hps
  have hpos : (s.cache c).slabsPartial > 0 := by
    rw [hc.partialCount]
    exact List.length_pos_of_mem hp
  have htotal : (s.cache c).slabsTotal > 0 := by
    rw [hc.total]
    exact List.length_pos_of_mem hps
  refine ⟨hpos, ?_⟩
  obtain ⟨bs, harea, hsparse, hcov⟩ := h.area
  have hin := h.inside ⟨c, hps⟩
  have hdisj : Disjoint (Set.Ico p (p + 1)) (cover bs) := by
    rw [hcov]
    refine Set.disjoint_left.mpr fun q hq hq' => hq'.2 ⟨c, ?_⟩
    rwa [show q = p by have := hq.1; have := hq.2; omega]
  obtain ⟨area, bs', hfree, harea', hsparse', hcov'⟩ := freePages_spec .slub harea hsparse
    (k := 1) (by decide) hin.1 hin.2 hdisj (Or.inl rfl) hsize
  have hfree' : slubPageFree p 1 s.area = some area := hfree
  obtain ⟨s', heq, hsarea, ht⟩ : ∃ s', slubReleaseSlab p ((slabListDel c p s).modifyCache c
      fun ch => { ch with slabsPartial := ch.slabsPartial - 1 }) = some s' ∧ s'.area = area ∧
        DropsSlab s s' c p := by
    refine ⟨{ (((slabListDel c p s).modifyCache c fun ch => { ch with
        slabsPartial := ch.slabsPartial - 1 }).modifySlab p fun sl => { sl with
        magic := 0 }).modifyCache c fun ch => { ch with
        slabsTotal := ch.slabsTotal - 1 } with area := area }, ?_, rfl, ?_⟩
    · have hmagic : (((slabListDel c p s).modifyCache c fun ch => { ch with
          slabsPartial := ch.slabsPartial - 1 }).slab p).magic = SLUB_SLAB_MAGIC := hrep.magic
      rw [slubReleaseSlab, slubAssert_pos hmagic]
      simp only [slabListDel, modifyCache_slab, Option.bind_eq_bind, Option.bind_some,
        modifySlab_self, slubAssert_pos hall, hrep.cache, modifySlab_cache, modifyCache_self,
        slubAssert_pos htotal, hrep.page]
      change (slubPageFree p 1 s.area).bind _ = _
      rw [hfree']
      rfl
    · refine ⟨rfl, fun q hq => Function.update_of_ne hq _ _, rfl, fun c' hcc => ?_, ?_⟩
      · simp only [modifyCache_of_ne _ _ hcc, modifySlab_cache, slabListDel]
      · simp only [modifyCache_self, modifySlab_cache, slabListDel]
  have hl : Local s s' live live c p := ht.isLocal
  have hpages : slabPages s' = slabPages s \ {p} := by
    rw [hl.slabPages, slabPages_eq s c]
    ext q
    simp only [Set.mem_ofPred_eq, ht.mem_slabs hc, Set.mem_sdiff, Set.mem_singleton_iff]
    constructor
    · rintro (⟨c', hcc, hq⟩ | ⟨hqp, hq⟩)
      · exact ⟨Or.inl ⟨c', hcc, hq⟩, fun he => hcc (h.cache_unique (he ▸ hq) hps)⟩
      · exact ⟨Or.inr hq, hqp⟩
    · rintro ⟨hq | hq, hqp⟩
      · exact Or.inl hq
      · exact Or.inr ⟨hqp, hq⟩
  refine ⟨s', heq, hl.caches h.caches (fun c' hcc hp' => hcc (h.cache_unique hp' hps))
    (fun q hq => (Option.some.inj hq).symm) (ht.cacheInv hc hp hrep (hall.trans hrep.capacity)),
    h.nodup, ⟨bs', hsarea ▸ harea', hsparse', ?_⟩, ?_, ?_, fun i hi => ?_⟩
  · rw [hcov', hcov, hpages]
    ext q
    have hqp : p ≤ q ∧ q < p + 1 ↔ q = p := by omega
    have hlo : q = p → lo ≤ q ∧ q < hi := fun he => he ▸ hin
    simp only [Set.mem_union, Set.mem_sdiff, Set.mem_Ico, Set.mem_singleton_iff, hqp]
    tauto
  · rw [hpages]
    exact Set.sdiff_subset.trans h.inside
  · rw [ht.customUsed]
    exact h.unused
  · rw [ht.customUsed]
    exact h.active i ((hl.active_eq _).symm.trans hi)

/-! ### Allocation and free -/

/-- A slab that still has an allocated slot may stay. -/
theorem Inv.settle (h : Inv lo hi s live (some p))
    (hne : (s.slab p).freeCount ≠ (s.slab p).capacity) : Inv lo hi s live none := by
  refine ⟨fun c' => ?_, h.nodup, h.area, h.inside, h.unused, h.active⟩
  obtain ⟨h₁, h₂, h₃, h₄, h₅, h₆, h₇, h₈, h₉, h₁₀⟩ := h.caches c'
  refine ⟨h₁, h₂, h₃, fun q hq => ⟨(h₄ q hq).1, fun he => ?_⟩, h₅, h₆, h₇, h₈, h₉, h₁₀⟩
  obtain rfl := Option.some.inj ((h₄ q hq).2 he)
  exact absurd he hne

/-- **Allocation** from a cache. -/
theorem slubCacheDoAlloc_spec (h : Inv lo hi s live none)
    (hused : ∀ i, c = .custom i → s.customUsed i = true) :
    slubCacheDoAlloc c s = some (none, s) ∨
      ∃ a s', slubCacheDoAlloc c s = some (some a, s') ∧ Inv lo hi s' ((c, a) :: live) none := by
  rw [slubCacheDoAlloc]
  by_cases hobj : (s.cache c).objsPerSlab = 0
  · rw [if_pos hobj]
    exact Or.inl rfl
  rw [if_neg hobj]
  by_cases hpart : (s.cache c).partialList = []
  · rw [if_pos hpart]
    rcases slubNewSlab_spec h (Nat.pos_of_ne_zero hobj) hpart with hnew | ⟨p, s₁, hnew, h₁, hp, hu⟩
    · rw [hnew]
      exact Or.inl rfl
    · rw [hnew]
      obtain ⟨a, s', heq, hinv⟩ := slubTakeSlot_spec h₁ (fun q hq => (Option.some.inj hq).symm) hp
        (by rwa [hu])
      exact Or.inr ⟨a, s', heq, hinv⟩
  · rw [if_neg hpart]
    obtain ⟨p, ps, hp⟩ := List.exists_cons_of_ne_nil hpart
    exact Or.inr (slubTakeSlot_spec h (fun q hq => nomatch hq) hp hused)

/-- Where a live object is: its page is a slab of its cache. -/
theorem Inv.live_slab (h : Inv lo hi s live none) {a : ℕ} (hlive : (c, a) ∈ live) :
    a / PGSIZE ∈ s.slabs c ∧ ∃ is i, SlabRep s live c (a / PGSIZE) is ∧
      i < (s.cache c).objsPerSlab ∧ a = slotAddr (a / PGSIZE) (s.cache c).objStride i := by
  have hc := h.caches c
  obtain ⟨p, hp, i, hil, rfl⟩ := hc.live a hlive
  obtain ⟨is, hrep⟩ := hc.slabs p hp
  rw [slot_page hc.room hil (hc.size hrep.pos).1]
  exact ⟨hp, is, i, hrep, hil, rfl⟩

/-- **Free** of a live object. -/
theorem slubCacheDoFree_spec (hsize : hi - lo + 1 < 2 ^ 32) (h : Inv lo hi s live none)
    (hlive : (c, a) ∈ live) :
    ∃ s', slubCacheDoFree c (a / PGSIZE) a s = some s' ∧ Inv lo hi s' (live.erase (c, a)) none := by
  obtain ⟨hp, is, i, hrep, hil, ha⟩ := h.live_slab hlive
  generalize a / PGSIZE = p at hp hrep ha ⊢
  subst ha
  obtain ⟨s₁, hput, ht⟩ := slubPutSlot_spec (h.caches c) hrep hil hlive
  have h₁ := ht.inv h hp hrep hil hlive
  have hp₁ : p ∈ s₁.slabs c := (ht.perm (h.caches c) hp hrep.count).mem_iff.mpr hp
  simp only [slubCacheDoFree, hput, Option.bind_eq_bind, Option.bind_some]
  by_cases hall : (s₁.slab p).freeCount = (s₁.slab p).capacity
  · have hpart : p ∈ (s₁.cache c).partialList := by
      rcases List.mem_append.mp hp₁ with hp' | hp'
      · exact hp'
      · have := (h₁.caches c).onFull p hp'
        rw [ht.slab] at this
        exact absurd this (Nat.succ_ne_zero _)
    obtain ⟨hpos, s', hrel, hinv⟩ := releaseSlab_spec hsize h₁ hpart hall
    refine ⟨s', ?_, hinv⟩
    have hpos' : ((slabListDel c p s₁).cache c).slabsPartial > 0 := by
      rw [slabListDel, modifyCache_self]
      exact hpos
    rw [if_pos hall, slubAssert_pos hpos']
    exact hrel
  · rw [if_neg hall]
    exact ⟨s₁, rfl, h₁.settle hall⟩

end Ucore.Slub
