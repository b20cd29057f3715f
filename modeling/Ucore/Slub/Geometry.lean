import Ucore.Slub.Runs

/-!
# The geometry of a cache

`slub_cache_setup` rounds the stride up to the alignment.  When `stride + align - 1` does not fit into
`size_t` the sum wraps around to a number below `align`, and what is rounded down is zero: the number of
objects is then a division by zero (`roundUp_wraps`).  Otherwise the slots fit into the page
(`slubCacheCreate_iff`).

The strides are multiples of the alignment, but the slots start behind the 48 bytes of the header.  So all
objects of a cache are aligned when the alignment divides 48, and none otherwise (`cacheAlloc_aligned_iff`).
-/

namespace Ucore.Slub

open FreeList Memory Relation

variable {s s' : State} {live : List (CacheId × ℕ)} {c : CacheId} {lo hi p objSize align : ℕ}

/-! ### Strides -/

theorem roundUp_dvd (a n : ℕ) : n ∣ roundUp a n := by
  rw [roundUp]
  exact Nat.dvd_sub_mod _

/-- A sum that wraps around is rounded down to zero. -/
theorem roundUp_wraps {a n : ℕ} (ha : a < 2 ^ 64) (hn : n ≤ 2 ^ 64) (h : ¬ a + n - 1 < 2 ^ 64) :
    roundUp a n = 0 := by
  have hmod : (a + n - 1) % 2 ^ 64 = a + n - 1 - 2 ^ 64 := by
    rw [Nat.mod_eq_sub_mod (by omega), Nat.mod_eq_of_lt (by omega)]
  rw [roundUp, hmod, Nat.mod_eq_of_lt (a := a + n - 1 - 2 ^ 64) (by omega), Nat.sub_self]

/-- The bounds on a cache with room for an object. -/
structure Geometry (ch : Cache) (objSize align : ℕ) : Prop where
  objSize_le : objSize ≤ ch.objStride
  align : ch.align = setupAlign align
  align_dvd : ch.align ∣ ch.objStride
  stride_lt : ch.objStride < 2 ^ 16
  count_lt : ch.objsPerSlab < 2 ^ 16
  count_lt_end : ch.objsPerSlab < SLUB_FREELIST_END
  room : slabHeaderSize + ch.objsPerSlab * ch.objStride ≤ PGSIZE

/-- **`slub_cache_setup`** without a wrap-around. -/
theorem slubCacheSetup_geometry (h : NoWrap objSize align) (isDefault : Bool) :
    ∃ ch, slubCacheSetup objSize align isDefault = some ch ∧ setupAlign align ∣ ch.objStride ∧
      ch.active = true ∧ (ch.objsPerSlab = 0 ∨ Geometry ch objSize align) := by
  have hmax : (if objSize < 2 then 2 else objSize) = max objSize 2 := by
    split <;> omega
  have hle := roundUp_spec (setupAlign_pos align) h
  have hdvd := roundUp_dvd (max objSize 2) (setupAlign align)
  rw [slubCacheSetup, hmax]
  simp only
  generalize roundUp (max objSize 2) (setupAlign align) = stride at hle hdvd
  by_cases hu : PGSIZE - slabHeaderSize ≥ stride
  · have hne : stride ≠ 0 := by omega
    have hdiv := Nat.div_le_div_left (c := 2) (b := stride) (a := PGSIZE - slabHeaderSize) (by omega)
      (by decide)
    have hsmall : (PGSIZE - slabHeaderSize) / stride ≤ 2024 := hdiv
    have hmod : (PGSIZE - slabHeaderSize) / stride % 2 ^ 16 = (PGSIZE - slabHeaderSize) / stride :=
      Nat.mod_eq_of_lt (by omega)
    have hroom : (PGSIZE - slabHeaderSize) / stride * stride ≤ PGSIZE - slabHeaderSize :=
      Nat.div_mul_le_self _ _
    refine ⟨_, by
      simp only [if_pos hu, slubAssert_pos hne, Option.bind_eq_bind, Option.bind_some, hmod]
      rfl, hdvd, rfl, .inr ⟨?_, rfl, hdvd, ?_, ?_, ?_, ?_⟩⟩
    · exact (Nat.le_max_left _ _).trans hle
    · simp only [PGSIZE, slabHeaderSize] at hu ⊢
      omega
    · show (PGSIZE - slabHeaderSize) / stride < 2 ^ 16
      omega
    · show (PGSIZE - slabHeaderSize) / stride < SLUB_FREELIST_END
      simp only [SLUB_FREELIST_END]
      omega
    · show slabHeaderSize + (PGSIZE - slabHeaderSize) / stride * stride ≤ PGSIZE
      have : slabHeaderSize ≤ PGSIZE := by decide
      omega
  · refine ⟨_, by
      simp only [if_neg hu, Option.bind_eq_bind, Option.bind_some]
      rfl, hdvd, rfl, .inl rfl⟩

/-- With a wrap-around it divides by zero. -/
theorem slubCacheSetup_wraps (hobj : objSize < 2 ^ 64) (halign : align < 2 ^ 64)
    (h : ¬ NoWrap objSize align) (isDefault : Bool) :
    slubCacheSetup objSize align isDefault = none := by
  have hmax : (if objSize < 2 then 2 else objSize) = max objSize 2 := by
    split <;> omega
  have hset : setupAlign align ≤ 2 ^ 64 := by
    simp only [setupAlign]
    have : SLUB_MIN_ALIGN = 8 := rfl
    split <;> split <;> omega
  have hzero := roundUp_wraps (a := max objSize 2) (by omega) hset h
  have hassert : slubAssert ((0 : ℕ) ≠ 0) = none := if_neg (by simp)
  rw [slubCacheSetup, hmax]
  simp only [hzero, ge_iff_le, Nat.zero_le, if_true, hassert, Option.bind_eq_bind, Option.bind_none]

/-- **The geometry of a new cache.**  `slub_cache_create` comes back without a division by zero exactly
when it has no slot for a cache, or the sizes do not wrap around; the cache then has no room for objects
and allocations from it return `NULL`, or its slots are as they should be. -/
theorem slubCacheCreate_iff (objSize align : BitVec 64) (s : State) :
    (∃ r s', slubCacheCreate objSize.toNat align.toNat s = some (r, s') ∧ ∀ c ∈ r,
      (s'.cache c).objsPerSlab = 0 ∧ slubCacheAlloc c s' = some (none, s') ∨
        Geometry (s'.cache c) objSize.toNat align.toNat) ↔
      slubAllocCacheSlot s = none ∨ NoWrap objSize.toNat align.toNat := by
  cases hslot : slubAllocCacheSlot s with
  | none =>
    refine iff_of_true ⟨none, s, ?_, fun c hc => by cases hc⟩ (.inl rfl)
    rw [slubCacheCreate, hslot]
  | some x =>
    obtain ⟨i, s₁⟩ := x
    rw [or_iff_right (Option.some_ne_none _)]
    constructor
    · rintro ⟨r, s', hcreate, -⟩
      by_contra hwrap
      have hnone := slubCacheSetup_wraps objSize.isLt align.isLt hwrap false
      simp only [slubCacheCreate, hslot, hnone, Option.bind_eq_bind, Option.bind_none] at hcreate
      cases hcreate
    · intro h
      obtain ⟨ch, hsetup, -, hactive, hor⟩ := slubCacheSetup_geometry h false
      refine ⟨some (.custom i), s₁.modifyCache (.custom i) fun _ => ch, ?_, ?_⟩
      · simp only [slubCacheCreate, hslot, hsetup, Option.bind_eq_bind, Option.bind_some]
      · rintro c ⟨rfl⟩
        rw [modifyCache_self]
        refine hor.imp_left fun hzero => ⟨hzero, ?_⟩
        rw [slubCacheAlloc, modifyCache_self, hactive]
        simp only [Bool.not_true, Bool.false_eq_true, if_false]
        rw [slubCacheDoAlloc, modifyCache_self, if_pos hzero]

/-- The largest `size_t` is a size that wraps around. -/
theorem slubCacheCreate_divides_by_zero :
    ∃ x₀, Client.start 0 1 (bootArea 1) (fun _ => emptySlab) (fun _ => 0) = some x₀ ∧
      slubAllocCacheSlot x₀.s ≠ none ∧ roundUp (2 ^ 64 - 1) (setupAlign 8) = 0 ∧
      slubCacheCreate (2 ^ 64 - 1) 8 x₀.s = none := ⟨_, rfl, nofun, rfl, rfl⟩

/-! ### Alignment -/

/-- What no call but its destruction changes in a cache. -/
structure Keeps (c : CacheId) (s s' : State) : Prop where
  stride : (s'.cache c).objStride = (s.cache c).objStride
  used : ∀ i, c = .custom i → s.customUsed i = true → s'.customUsed i = true

theorem Keeps.refl (c : CacheId) (s : State) : Keeps c s s := ⟨rfl, fun _ _ h => h⟩

theorem Keeps.trans {t : State} (h₁ : Keeps c s t) (h₂ : Keeps c t s') : Keeps c s s' :=
  ⟨h₂.stride.trans h₁.stride, fun i hi h => h₂.used i hi (h₁.used i hi h)⟩

theorem Keeps.congr {t : State} (h : Keeps c s t) (hcache : s'.cache = t.cache)
    (hused : s'.customUsed = t.customUsed) : Keeps c s s' := by
  constructor
  · rw [hcache]
    exact h.stride
  · rw [hused]
    exact h.used

theorem Keeps.modifyCache {t : State} (h : Keeps c s t) {c' : CacheId} {f : Cache → Cache}
    (hf : ∀ ch, (f ch).objStride = ch.objStride) : Keeps c s (t.modifyCache c' f) := by
  refine h.trans ⟨?_, fun i _ hi => hi⟩
  by_cases hc : c = c'
  · subst hc
    rw [modifyCache_self, hf]
  · rw [modifyCache_of_ne _ _ hc]

theorem slabListDel_keeps {t : State} (h : Keeps c s t) (c' : CacheId) (p : ℕ) :
    Keeps c s (slabListDel c' p t) := h.modifyCache fun _ => rfl

theorem slubNewSlab_keeps {c' : CacheId} {r : Option ℕ} (h : slubNewSlab c' s = some (r, s')) :
    Keeps c s s' := by
  simp only [slubNewSlab, Option.bind_eq_bind, Option.bind_eq_some_iff] at h
  obtain ⟨-, -, ⟨page, area⟩, -, h⟩ := h
  cases page with
  | none =>
    obtain ⟨-, rfl⟩ := Prod.mk.inj (Option.some.inj h)
    exact (Keeps.refl c s).congr rfl rfl
  | some p =>
    obtain ⟨-, rfl⟩ := Prod.mk.inj (Option.some.inj h)
    refine Keeps.modifyCache ?_ fun _ => rfl
    exact (Keeps.refl c s).congr rfl rfl

theorem slubTakeSlot_keeps {c' : CacheId} {r : Option ℕ} (h : slubTakeSlot c' s = some (r, s')) :
    Keeps c s s' := by
  rw [slubTakeSlot] at h
  split at h
  · cases h
  · rename_i p ps _
    obtain ⟨-, -, h⟩ := Option.bind_eq_some_iff.1 h
    dsimp only at h
    split at h
    · obtain ⟨-, -, h⟩ := Option.bind_eq_some_iff.1 h
      obtain ⟨t, ht, h⟩ := Option.bind_eq_some_iff.1 h
      have hk : Keeps c s t := by
        obtain rfl := Option.some.inj ht
        refine Keeps.modifyCache ?_ fun _ => rfl
        refine Keeps.modifyCache ?_ fun _ => rfl
        refine slabListDel_keeps ?_ c' p
        refine Keeps.modifyCache ?_ fun _ => rfl
        exact (Keeps.refl c s).congr rfl rfl
      obtain ⟨-, rfl⟩ := Prod.mk.inj (Option.some.inj h)
      exact hk.congr rfl rfl
    · obtain ⟨t, ht, h⟩ := Option.bind_eq_some_iff.1 h
      have hk : Keeps c s t := by
        obtain rfl := Option.some.inj ht
        refine Keeps.modifyCache ?_ fun _ => rfl
        exact (Keeps.refl c s).congr rfl rfl
      obtain ⟨-, rfl⟩ := Prod.mk.inj (Option.some.inj h)
      exact hk.congr rfl rfl

theorem slubCacheDoAlloc_keeps {c' : CacheId} {r : Option ℕ}
    (h : slubCacheDoAlloc c' s = some (r, s')) : Keeps c s s' := by
  rw [slubCacheDoAlloc] at h
  split at h
  · obtain ⟨-, rfl⟩ := Prod.mk.inj (Option.some.inj h)
    exact Keeps.refl c s
  · split at h
    · obtain ⟨⟨slab, t⟩, ht, h⟩ := Option.bind_eq_some_iff.1 h
      have hnew := slubNewSlab_keeps (c := c) ht
      cases slab with
      | none =>
        obtain ⟨-, rfl⟩ := Prod.mk.inj (Option.some.inj h)
        exact hnew
      | some p => exact hnew.trans (slubTakeSlot_keeps h)
    · exact slubTakeSlot_keeps h

theorem slubReleaseSlab_keeps {t : State} (hk : Keeps c s t) (h : slubReleaseSlab p t = some s') :
    Keeps c s s' := by
  simp only [slubReleaseSlab, Option.bind_eq_bind, Option.bind_eq_some_iff] at h
  obtain ⟨-, -, -, -, -, -, area, -, h⟩ := h
  obtain rfl := Option.some.inj h
  have hk' : Keeps c s (t.modifyCache (t.slab p).cache fun ch =>
      { ch with slabsTotal := ch.slabsTotal - 1 }) := hk.modifyCache fun _ => rfl
  exact hk'.congr rfl rfl

theorem slubCacheDoFree_keeps {c' : CacheId} {obj : ℕ} (h : slubCacheDoFree c' p obj s = some s') :
    Keeps c s s' := by
  obtain ⟨t, hput, h⟩ := Option.bind_eq_some_iff.1 h
  have hk : Keeps c s t := by
    simp only [slubPutSlot, Option.bind_eq_bind, Option.bind_eq_some_iff] at hput
    obtain ⟨-, -, -, -, hput⟩ := hput
    split at hput
    · obtain rfl := Option.some.inj hput
      refine Keeps.modifyCache ?_ fun _ => rfl
      refine slabListDel_keeps ?_ c' p
      refine Keeps.modifyCache ?_ fun _ => rfl
      exact (Keeps.refl c s).congr rfl rfl
    · obtain rfl := Option.some.inj hput
      refine Keeps.modifyCache ?_ fun _ => rfl
      exact (Keeps.refl c s).congr rfl rfl
  split at h
  · obtain ⟨-, -, h⟩ := Option.bind_eq_some_iff.1 h
    refine slubReleaseSlab_keeps ?_ h
    refine Keeps.modifyCache ?_ fun _ => rfl
    exact slabListDel_keeps hk c' p
  · obtain rfl := Option.some.inj h
    exact hk

theorem cleanupLoop_keeps {c' : CacheId} {k : ℕ} (h : cleanupLoop c' k s = some s') :
    Keeps c s s' := by
  induction k generalizing s with
  | zero =>
    rw [cleanupLoop] at h
    split at h
    · obtain rfl := Option.some.inj h
      exact Keeps.refl c s
    · cases h
  | succ k ih =>
    rw [cleanupLoop] at h
    split at h
    · obtain rfl := Option.some.inj h
      exact Keeps.refl c s
    · rename_i p ps _
      obtain ⟨-, -, h⟩ := Option.bind_eq_some_iff.1 h
      obtain ⟨-, -, h⟩ := Option.bind_eq_some_iff.1 h
      obtain ⟨t, ht, h⟩ := Option.bind_eq_some_iff.1 h
      refine Keeps.trans (slubReleaseSlab_keeps ?_ ht) (ih h)
      refine Keeps.modifyCache ?_ fun _ => rfl
      exact slabListDel_keeps (Keeps.refl c s) c' p

/-- The destruction of another cache. -/
theorem slubCacheDestroy_keeps {c' : CacheId} (hne : c ≠ c') (h : slubCacheDestroy c' s = some s') :
    Keeps c s s' := by
  obtain ⟨t, ht, h⟩ := Option.bind_eq_some_iff.1 h
  have hk : Keeps c s t := by
    obtain ⟨-, -, ht⟩ := Option.bind_eq_some_iff.1 ht
    obtain ⟨u, hu, ht⟩ := Option.bind_eq_some_iff.1 ht
    obtain ⟨-, -, ht⟩ := Option.bind_eq_some_iff.1 ht
    obtain rfl := Option.some.inj ht
    exact (cleanupLoop_keeps hu).modifyCache fun _ => rfl
  obtain rfl := Option.some.inj h
  split
  · exact hk
  · cases c' with
    | default j => exact hk
    | custom j =>
      refine hk.trans ⟨rfl, ?_⟩
      rintro i rfl hi
      have hij : i ≠ j := fun hij => hne (congrArg CacheId.custom hij)
      exact (Function.update_of_ne hij _ _).trans hi

/-- A new cache takes a slot that was not in use. -/
theorem slubCacheCreate_keeps {r : Option CacheId} (hused : ∀ i, c = .custom i → s.customUsed i = true)
    (h : slubCacheCreate objSize align s = some (r, s')) : Keeps c s s' := by
  rw [slubCacheCreate, slubAllocCacheSlot] at h
  cases hfind : (List.finRange 8).find? fun i => !s.customUsed i with
  | none =>
    rw [hfind] at h
    obtain ⟨-, rfl⟩ := Prod.mk.inj (Option.some.inj h)
    exact Keeps.refl c s
  | some i =>
    have hunused : s.customUsed i = false := by simpa using List.find?_some hfind
    rw [hfind] at h
    obtain ⟨ch, -, h⟩ := Option.bind_eq_some_iff.1 h
    obtain ⟨-, rfl⟩ := Prod.mk.inj (Option.some.inj h)
    have hne : c ≠ .custom i := by
      intro hc
      rw [hused i hc] at hunused
      cases hunused
    refine ⟨?_, fun j hj hu => ?_⟩
    · rw [modifyCache_of_ne _ _ hne]
    · have hij : j ≠ i := fun hij => hne (hij ▸ hj)
      exact (Function.update_of_ne hij _ _).trans hu

/-- The arguments of type `size_t`. -/
def Call.Sized : Call → Prop
  | .create objSize align => objSize < 2 ^ 64 ∧ align < 2 ^ 64
  | _ => True

/-- A legal call that comes back. -/
def LegalStep (x x' : Client) : Prop :=
  ∃ call : Call, call.Legal x ∧ call.Sized ∧ x.call call = some x'

/-- A legal call that comes back and does not destroy the cache. -/
def KeepingStep (c : CacheId) (x x' : Client) : Prop :=
  ∃ call : Call, call.Legal x ∧ call.Sized ∧ call ≠ .destroy c ∧ x.call call = some x'

theorem slubAssert_eq_some {q : Prop} [Decidable q] {u : Unit} : slubAssert q = some u ↔ q := by
  by_cases h : q
  · exact iff_of_true (if_pos h) h
  · exact iff_of_false (fun heq => nomatch (if_neg h).symm.trans heq) h

/-- A call that comes back was safe, or it was a creation without a slot. -/
theorem Client.call_inv {x x' : Client} {call : Call} (hsize : hi - lo + 1 < 2 ^ 32)
    (h : Inv lo hi x.s x.live none) (hlegal : call.Legal x) (hsized : call.Sized)
    (hcall : x.call call = some x') : Inv lo hi x'.s x'.live none := by
  have hof : call.Safe x → Inv lo hi x'.s x'.live none := by
    intro hsafe
    obtain ⟨z, heq, hz⟩ := Client.call_spec hsize h hlegal hsafe
    obtain rfl := Option.some.inj (heq.symm.trans hcall)
    exact hz
  cases call with
  | create objSize align =>
    by_cases hwrap : NoWrap objSize align
    · exact hof hwrap
    · obtain ⟨⟨r, s'⟩, hcreate, hcall⟩ := Option.bind_eq_some_iff.1 hcall
      obtain rfl := Option.some.inj hcall
      rw [slubCacheCreate] at hcreate
      split at hcreate
      · obtain ⟨-, rfl⟩ := Prod.mk.inj (Option.some.inj hcreate)
        exact h
      · obtain ⟨ch, hsetup, -⟩ := Option.bind_eq_some_iff.1 hcreate
        rw [slubCacheSetup_wraps hsized.1 hsized.2 hwrap] at hsetup
        cases hsetup
  | destroy c =>
    refine hof fun a ha => ?_
    obtain ⟨s', hdestroy, -⟩ := Option.bind_eq_some_iff.1 hcall
    obtain ⟨t, hclean, -⟩ := Option.bind_eq_some_iff.1 hdestroy
    obtain ⟨u, hassert, -⟩ := Option.bind_eq_some_iff.1 hclean
    have hzero := slubAssert_eq_some.1 hassert
    rw [(h.caches c).inuse, List.countP_eq_zero] at hzero
    exact hzero (c, a) ha (by simp)
  | cacheAlloc c => exact hof trivial
  | cacheFree c a => exact hof trivial
  | alloc size => exact hof trivial
  | free c a => exact hof trivial
  | write c a off b => exact hof trivial

theorem slubCacheAlloc_keeps {c' : CacheId} {r : Option ℕ}
    (h : slubCacheAlloc c' s = some (r, s')) : Keeps c s s' := by
  rw [slubCacheAlloc] at h
  split at h
  · obtain ⟨-, rfl⟩ := Prod.mk.inj (Option.some.inj h)
    exact Keeps.refl c s
  · exact slubCacheDoAlloc_keeps h

theorem slubAlloc_keeps {size : ℕ} {r : Option ℕ} (h : slubAlloc size s = some (r, s')) :
    Keeps c s s' := by
  rw [slubAlloc] at h
  split at h
  · obtain ⟨-, rfl⟩ := Prod.mk.inj (Option.some.inj h)
    exact Keeps.refl c s
  · split at h
    · exact slubCacheDoAlloc_keeps h
    · obtain ⟨-, rfl⟩ := Prod.mk.inj (Option.some.inj h)
      exact Keeps.refl c s

/-- No call but its destruction changes the stride of a cache in use. -/
theorem Client.call_keeps {x x' : Client} {call : Call} (hne : call ≠ .destroy c)
    (hused : ∀ i, c = .custom i → x.s.customUsed i = true) (h : x.call call = some x') :
    Keeps c x.s x'.s := by
  cases call with
  | create objSize align =>
    obtain ⟨⟨r, s'⟩, hcreate, h⟩ := Option.bind_eq_some_iff.1 h
    obtain rfl := Option.some.inj h
    exact slubCacheCreate_keeps hused hcreate
  | destroy c' =>
    obtain ⟨s', hdestroy, h⟩ := Option.bind_eq_some_iff.1 h
    obtain rfl := Option.some.inj h
    exact slubCacheDestroy_keeps (fun hc => hne (congrArg Call.destroy hc.symm)) hdestroy
  | cacheAlloc c' =>
    obtain ⟨⟨r, s'⟩, halloc, h⟩ := Option.bind_eq_some_iff.1 h
    obtain rfl := Option.some.inj h
    exact slubCacheAlloc_keeps halloc
  | cacheFree c' a =>
    obtain ⟨s', hfree, h⟩ := Option.bind_eq_some_iff.1 h
    obtain rfl := Option.some.inj h
    obtain ⟨p, -, hfree⟩ := Option.bind_eq_some_iff.1 hfree
    obtain ⟨-, -, hfree⟩ := Option.bind_eq_some_iff.1 hfree
    obtain ⟨-, -, hfree⟩ := Option.bind_eq_some_iff.1 hfree
    exact slubCacheDoFree_keeps hfree
  | alloc size =>
    obtain ⟨⟨r, s'⟩, halloc, h⟩ := Option.bind_eq_some_iff.1 h
    have hk := slubAlloc_keeps (c := c) halloc
    dsimp only at h
    split at h
    · obtain rfl := Option.some.inj h
      exact hk
    · obtain rfl := Option.some.inj h
      exact hk
  | free c' a =>
    obtain ⟨s', hfree, h⟩ := Option.bind_eq_some_iff.1 h
    obtain rfl := Option.some.inj h
    obtain ⟨p, -, hfree⟩ := Option.bind_eq_some_iff.1 hfree
    obtain ⟨-, -, hfree⟩ := Option.bind_eq_some_iff.1 hfree
    exact slubCacheDoFree_keeps hfree
  | write c' a off b =>
    obtain rfl := Option.some.inj h
    exact (Keeps.refl c x.s).congr rfl rfl

theorem dvd_setupAlign (k : ℕ) : 2 ^ k ∣ setupAlign (2 ^ k) := by
  cases k with
  | zero => exact Nat.one_dvd _
  | succ k =>
    have hpos : 0 < 2 ^ k := Nat.two_pow_pos k
    have hne : ¬ 2 ^ (k + 1) = 0 := by omega
    have hge : ¬ 2 ^ (k + 1) < 2 := by omega
    simp only [setupAlign, if_neg hne, if_neg hge]
    exact Nat.dvd_refl _

/-- The powers of two that divide the size of the header. -/
theorem dvd_slabHeaderSize_iff {k : ℕ} (hk : k ≤ 12) : 2 ^ k ∣ slabHeaderSize ↔ k ≤ 4 := by
  have hall : ∀ k < 13, (2 ^ k ∣ slabHeaderSize ↔ k ≤ 4) := by decide
  exact hall k (by omega)

/-- What `slub_cache_create` stores in the slot that it takes. -/
theorem slubCacheCreate_stride {k : ℕ} (hobj : objSize < 2 ^ 64) (hk : k ≤ 12)
    (h : slubCacheCreate objSize (2 ^ k) s = some (some c, s')) :
    2 ^ k ∣ (s'.cache c).objStride ∧ ∀ i, c = .custom i → s'.customUsed i = true := by
  have halign : 2 ^ k < 2 ^ 64 := Nat.pow_lt_pow_right (by decide) (by omega)
  rw [slubCacheCreate] at h
  split at h
  · cases h
  · rename_i i s₁ hslot
    obtain ⟨j, -, hj⟩ := Option.map_eq_some_iff.1 hslot
    obtain ⟨rfl, rfl⟩ := Prod.mk.inj hj
    obtain ⟨ch, hsetup, h⟩ := Option.bind_eq_some_iff.1 h
    obtain ⟨hc, rfl⟩ := Prod.mk.inj (Option.some.inj h)
    obtain rfl := Option.some.inj hc
    have hwrap : NoWrap objSize (2 ^ k) := by
      by_contra hwrap
      rw [slubCacheSetup_wraps hobj halign hwrap] at hsetup
      cases hsetup
    obtain ⟨ch', hsetup', hdvd, -⟩ := slubCacheSetup_geometry hwrap false
    obtain rfl := Option.some.inj (hsetup'.symm.trans hsetup)
    constructor
    · rw [modifyCache_self]
      exact Nat.dvd_trans (dvd_setupAlign k) hdvd
    · rintro i' hi'
      obtain rfl := CacheId.custom.inj hi'
      exact Function.update_self _ _ _

/-- **The alignment of objects.**  In every run of legal calls, when a cache was created with the alignment
`2 ^ k`, at most a page, and was not destroyed since, the pointer that an allocation from it returns is a
multiple of the alignment if and only if the alignment is at most 16. -/
theorem cacheAlloc_aligned_iff {base n : ℕ} {area : FreeArea} (slab : ℕ → Slab) (mem : Mem) (hn : 0 < n)
    (hsize : n + 1 < 2 ^ 32)
    (hres : ∀ i, base ≤ i → i < base + n → (area.page i).reserved = true)
    (hnp : base + n ≤ area.npage) :
    ∃ x₀, Client.start base n area slab mem = some x₀ ∧
      ∀ x, ReflTransGen LegalStep x₀ x → ∀ objSize k c x₁, objSize < 2 ^ 64 → 2 ^ k ≤ PGSIZE →
        slubCacheCreate objSize (2 ^ k) x.s = some (some c, x₁) →
        ∀ y, ReflTransGen (KeepingStep c) { x with s := x₁, known := c :: x.known } y →
          ∀ a s', slubCacheAlloc c y.s = some (some a, s') →
            ∀ kva, PGSIZE ∣ kva → (2 ^ k ∣ kva + a ↔ 2 ^ k ≤ 16) := by
  obtain ⟨x₀, hstart, hinv₀⟩ := Client.inv_start hn hsize hres hnp slab mem
  have hsize' : base + n - base + 1 < 2 ^ 32 := by omega
  refine ⟨x₀, hstart, fun x hx objSize k c s₁ hobj hk hcreate y hy a s' halloc kva hkva => ?_⟩
  have hk12 : k ≤ 12 := (Nat.pow_le_pow_iff_right (by decide)).1 hk
  have hinvx : Inv base (base + n) x.s x.live none := by
    refine Transition.invariant (P := fun z => Inv base (base + n) z.s z.live none) ?_ hx hinv₀
    rintro z z' hz ⟨call, hlegal, hsized, hcall⟩
    exact Client.call_inv hsize' hz hlegal hsized hcall
  have hinv₁ : Inv base (base + n) s₁ x.live none := by
    have halign : 2 ^ k < 2 ^ 64 := Nat.pow_lt_pow_right (by decide) (by omega)
    have hlegal : (Call.create objSize (2 ^ k)).Legal x := trivial
    have hsized : (Call.create objSize (2 ^ k)).Sized := ⟨hobj, halign⟩
    have hcall : x.call (.create objSize (2 ^ k)) =
        some { x with s := s₁, known := c :: x.known } := by
      simp only [Client.call, hcreate, Option.bind_eq_bind, Option.bind_some]
      rfl
    exact Client.call_inv hsize' hinvx hlegal hsized hcall
  obtain ⟨hdvd, hused⟩ := slubCacheCreate_stride hobj hk12 hcreate
  obtain ⟨hinvy, hkeeps⟩ : Inv base (base + n) y.s y.live none ∧ Keeps c s₁ y.s := by
    refine Transition.invariant
      (P := fun z => Inv base (base + n) z.s z.live none ∧ Keeps c s₁ z.s) ?_ hy
      ⟨hinv₁, Keeps.refl c s₁⟩
    rintro z z' ⟨hz, hkz⟩ ⟨call, hlegal, hsized, hne, hcall⟩
    exact ⟨Client.call_inv hsize' hz hlegal hsized hcall,
      hkz.trans (Client.call_keeps hne (fun i hi => hkz.used i hi (hused i hi)) hcall)⟩
  have hinv' : Inv base (base + n) s' ((c, a) :: y.live) none := by
    rw [slubCacheAlloc] at halloc
    split at halloc
    · cases halloc
    · rcases slubCacheDoAlloc_spec hinvy (c := c) fun i hi => hkeeps.used i hi (hused i hi) with
        heq | ⟨a', t, heq, hinv⟩
      · cases heq.symm.trans halloc
      · obtain ⟨hr, rfl⟩ := Prod.mk.inj (Option.some.inj (heq.symm.trans halloc))
        obtain rfl := Option.some.inj hr
        exact hinv
  obtain ⟨p, -, i, -, ha⟩ := (hinv'.caches c).live a List.mem_cons_self
  have hstride : 2 ^ k ∣ (s'.cache c).objStride := by
    rw [(slubCacheAlloc_keeps (c := c) halloc).stride, hkeeps.stride]
    exact hdvd
  have hpage : 2 ^ k ∣ PGSIZE := Nat.pow_dvd_pow 2 hk12
  have hsum : kva + a = kva + p * PGSIZE + i * (s'.cache c).objStride + slabHeaderSize := by
    rw [ha, slotAddr]
    omega
  have hrest : 2 ^ k ∣ kva + p * PGSIZE + i * (s'.cache c).objStride :=
    Nat.dvd_add (Nat.dvd_add (Nat.dvd_trans hpage hkva) (Nat.dvd_mul_left_of_dvd hpage p))
      (Nat.dvd_mul_left_of_dvd hstride i)
  rw [hsum, ← Nat.dvd_add_iff_right hrest, dvd_slabHeaderSize_iff hk12]
  exact (Nat.pow_le_pow_iff_right (m := 4) (by decide)).symm

/-- Two pages, right after `slub_init_memmap`. -/
theorem cacheAlloc_aligned_iff_two :
    ∃ x₀, Client.start 0 2 (bootArea 2) (fun _ => emptySlab) (fun _ => 0) = some x₀ ∧
      ∀ x, ReflTransGen LegalStep x₀ x → ∀ objSize k c x₁, objSize < 2 ^ 64 → 2 ^ k ≤ PGSIZE →
        slubCacheCreate objSize (2 ^ k) x.s = some (some c, x₁) →
        ∀ y, ReflTransGen (KeepingStep c) { x with s := x₁, known := c :: x.known } y →
          ∀ a s', slubCacheAlloc c y.s = some (some a, s') →
            ∀ kva, PGSIZE ∣ kva → (2 ^ k ∣ kva + a ↔ 2 ^ k ≤ 16) :=
  cacheAlloc_aligned_iff (fun _ => emptySlab) (fun _ => 0) (by decide) (by decide) (fun _ _ _ => rfl)
    (by decide)

/-- The first object of a cache with the alignment 32 lies behind the 48 bytes of the header. -/
theorem cacheAlloc_unaligned :
    ∃ x₀ x₁ c a s', Client.start 0 1 (bootArea 1) (fun _ => emptySlab) (fun _ => 0) = some x₀ ∧
      slubCacheCreate 64 32 x₀.s = some (some c, x₁) ∧ slubCacheAlloc c x₁ = some (some a, s') ∧
      a = 48 ∧ ∀ kva, PGSIZE ∣ kva → ¬ 32 ∣ kva + a := by
  refine ⟨_, _, _, _, _, rfl, rfl, rfl, rfl, fun kva hkva h => ?_⟩
  have hdvd : 32 ∣ kva := Nat.dvd_trans (by decide) hkva
  exact absurd ((Nat.dvd_add_iff_right hdvd).2 h) (by decide)

end Ucore.Slub
