import Ucore.FreeList.Runs
import Ucore.Slub.Operations

/-!
# Runs of the object layer

Clients create and destroy caches, allocate from a cache or by size, free live objects and write
into them.  `Call.Legal` is the discipline of a careful client; `Call.Safe` adds that a cache is
destroyed only when none of its objects is live, because `slub_cache_destroy` asserts that
(`destroy_with_live_object_panics`), and that the sizes given to `slub_cache_create` do not wrap
around in `ROUNDUP`.

**`slub_well_formed`**: in every run of safe calls the slabs, chains, lists and counters are as they
should be (`WellFormed`), and every safe call returns.
-/

namespace Ucore.Slub

open FreeList Extent Memory Relation

variable {s s' : State} {live : List (CacheId × ℕ)} {c : CacheId} {lo hi : ℕ}

/-! ### Caches -/

theorem roundUp_spec {a n : ℕ} (hn : 0 < n) (h : a + n - 1 < 2 ^ 64) : a ≤ roundUp a n := by
  rw [roundUp, Nat.mod_eq_of_lt h]
  have := Nat.mod_lt (a + n - 1) hn
  omega

theorem setupAlign_pos (align : ℕ) : 0 < setupAlign align := by
  simp only [setupAlign]
  split <;> split <;> omega

/-- The sizes that do not wrap around in `slub_cache_setup`. -/
def NoWrap (objSize align : ℕ) : Prop := max objSize 2 + setupAlign align - 1 < 2 ^ 64

/-- A cache without slabs, ready for use. -/
structure Fresh (ch : Cache) (objSize : ℕ) : Prop where
  objSize : ch.objSize = objSize
  lists : ch.partialList = [] ∧ ch.fullList = []
  counts : ch.slabsTotal = 0 ∧ ch.slabsPartial = 0 ∧ ch.inuseObjs = 0
  size : 0 < ch.objsPerSlab → 2 ≤ ch.objStride ∧ ch.objSize ≤ ch.objStride
  room : ch.objsPerSlab * ch.objStride ≤ PGSIZE - slabHeaderSize

theorem slubCacheSetup_spec {objSize align : ℕ} (h : NoWrap objSize align) (isDefault : Bool) :
    ∃ ch, slubCacheSetup objSize align isDefault = some ch ∧ Fresh ch objSize := by
  have hmax : (if objSize < 2 then 2 else objSize) = max objSize 2 := by
    split <;> omega
  have hle := roundUp_spec (setupAlign_pos align) h
  rw [slubCacheSetup, hmax]
  simp only
  generalize roundUp (max objSize 2) (setupAlign align) = stride at hle
  have h2 : 2 ≤ stride := by omega
  have hobj : objSize ≤ stride := by omega
  by_cases hu : PGSIZE - slabHeaderSize ≥ stride
  · have hne : stride ≠ 0 := by omega
    have hmod : (PGSIZE - slabHeaderSize) / stride % 2 ^ 16 = (PGSIZE - slabHeaderSize) / stride :=
      Nat.mod_eq_of_lt ((Nat.div_le_self _ _).trans_lt (by decide))
    refine ⟨_, by
      simp only [if_pos hu, slubAssert_pos hne, Option.bind_eq_bind, Option.bind_some]
      rfl, ?_⟩
    refine ⟨rfl, ⟨rfl, rfl⟩, ⟨rfl, rfl, rfl⟩, fun _ => ⟨h2, hobj⟩, ?_⟩
    rw [hmod]
    exact Nat.div_mul_le_self _ _
  · refine ⟨_, by
      simp only [if_neg hu, Option.bind_eq_bind, Option.bind_some]
      rfl, ?_⟩
    exact ⟨rfl, ⟨rfl, rfl⟩, ⟨rfl, rfl, rfl⟩, fun h0 => absurd h0 (by simp), by simp⟩

/-- A cache record without slabs and without live objects. -/
theorem CacheInv.of_fresh {objSize : ℕ} (hf : Fresh (s.cache c) objSize)
    (hno : ∀ a, (c, a) ∉ live) : CacheInv s live none c := by
  have hnil : s.slabs c = [] := by
    rw [State.slabs, hf.lists.1, hf.lists.2]
    rfl
  have hcount : live.countP (fun a => a.1 = c) = 0 := by
    rw [List.countP_eq_zero]
    rintro ⟨c', a⟩ ha
    simp only [decide_eq_true_eq]
    rintro rfl
    exact hno a ha
  refine ⟨hf.size, hf.room, ?_, ?_, ?_, ?_, ?_, ?_, ?_, fun a ha => absurd ha (hno a)⟩
  · rw [hnil]
    exact fun p hp => absurd hp List.not_mem_nil
  · rw [hf.lists.1]
    exact fun p hp => absurd hp List.not_mem_nil
  · rw [hf.lists.2]
    exact fun p hp => absurd hp List.not_mem_nil
  · rw [hnil]
    exact List.nodup_nil
  · rw [hnil, hf.counts.1]
    rfl
  · rw [hf.lists.1, hf.counts.2.1]
    rfl
  · rw [hf.counts.2.2, hcount]

/-- Changes of one cache that has no slab before and after. -/
theorem Inv.of_no_slabs (h : Inv lo hi s live none) (hnil : s.slabs c = [])
    (hnil' : s'.slabs c = []) (harea : s'.area = s.area) (hslab : s'.slab = s.slab)
    (hmem : s'.mem = s.mem) (hcache : ∀ c' ≠ c, s'.cache c' = s.cache c')
    (hc : CacheInv s' live none c)
    (hunused : ∀ i, s'.customUsed i = false → ∀ a, (CacheId.custom i, a) ∉ live)
    (hactive : ∀ i, (s'.cache (.custom i)).active = true → s'.customUsed i = true) :
    Inv lo hi s' live none := by
  have hpages : slabPages s' = slabPages s := by
    rw [slabPages_eq s c, slabPages_eq s' c, hnil, hnil']
    ext q
    simp only [Set.mem_ofPred_eq, List.not_mem_nil, or_false]
    refine exists_congr fun c' => and_congr_right fun hcc => ?_
    rw [State.slabs, State.slabs, hcache c' hcc]
  refine ⟨fun c' => ?_, h.nodup, ?_, ?_, hunused, hactive⟩
  · by_cases hcc : c' = c
    · rw [hcc]
      exact hc
    · exact (h.caches c').frame (hcache c' hcc)
        (fun q _ => ⟨congrFun hslab q, fun a _ _ => congrFun hmem a⟩) (fun _ => Iff.rfl) rfl
        fun _ _ he => he
  · rw [harea, hpages]
    exact h.area
  · rw [hpages]
    exact h.inside

/-- `slub_cache_create`: the slot taken has no live objects. -/
theorem slubCacheCreate_spec {objSize align : ℕ} (h : Inv lo hi s live none)
    (hw : NoWrap objSize align) :
    ∃ r s', slubCacheCreate objSize align s = some (r, s') ∧ Inv lo hi s' live none := by
  rw [slubCacheCreate, slubAllocCacheSlot]
  cases hfind : (List.finRange 8).find? fun i => !s.customUsed i with
  | none => exact ⟨none, s, rfl, h⟩
  | some i =>
    have hunused : s.customUsed i = false := by simpa using List.find?_some hfind
    have hno := h.unused i hunused
    obtain ⟨ch, hsetup, hf⟩ := slubCacheSetup_spec hw false
    simp only [Option.map_some, hsetup, Option.bind_eq_bind, Option.bind_some]
    refine ⟨_, _, rfl, ?_⟩
    have hf' : Fresh ((State.modifyCache { s with
        customUsed := Function.update s.customUsed i true } (.custom i) fun _ => ch).cache
          (.custom i)) objSize := by
      rw [modifyCache_self]
      exact hf
    refine h.of_no_slabs (c := .custom i) ((h.caches _).slabs_eq_nil hno) ?_ rfl rfl rfl
      (fun c' hcc => modifyCache_of_ne _ _ hcc) (CacheInv.of_fresh hf' hno) (fun k hk => ?_)
      fun k hk => ?_
    · rw [State.slabs, hf'.lists.1, hf'.lists.2]
      rfl
    · have hki : k ≠ i := by
        rintro rfl
        exact absurd ((Function.update_self _ _ _).symm.trans hk) (by decide)
      exact h.unused k ((Function.update_of_ne hki _ _).symm.trans hk)
    · by_cases hki : k = i
      · subst hki
        exact Function.update_self _ _ _
      · rw [modifyCache_of_ne _ _ fun he => hki (CacheId.custom.inj he)] at hk
        exact (Function.update_of_ne hki _ _).trans (h.active k hk)

/-- `slub_cache_destroy` of a cache without live objects: it holds no slab, nothing is asserted in
vain. -/
theorem slubCacheDestroy_spec (h : Inv lo hi s live none) (hno : ∀ a, (c, a) ∉ live) :
    ∃ s', slubCacheDestroy c s = some s' ∧ Inv lo hi s' live none := by
  have hc := h.caches c
  have hnil := hc.slabs_eq_nil hno
  obtain ⟨hpart, hfull⟩ := List.append_eq_nil_iff.mp hnil
  have hinuse : (s.cache c).inuseObjs = 0 := by
    rw [hc.inuse, List.countP_eq_zero]
    rintro ⟨c', a⟩ ha
    simp only [decide_eq_true_eq]
    rintro rfl
    exact hno a ha
  have hclean : slubCacheCleanup c s =
      some (s.modifyCache c fun ch => { ch with active := false }) := by
    simp only [slubCacheCleanup, slubAssert_pos hinuse, hpart, List.length_nil, cleanupLoop,
      Option.bind_eq_bind, Option.bind_some, if_true, slubAssert_pos hfull]
  rw [slubCacheDestroy, hclean]
  refine ⟨_, rfl, ?_⟩
  -- apart from `active` and `customUsed` nothing changes
  have hmain : ∀ s' : State, s'.area = s.area → s'.slab = s.slab → s'.mem = s.mem →
      s'.cache = (s.modifyCache c fun ch => { ch with active := false }).cache →
      (∀ i, s'.customUsed i = s.customUsed i ∨ c = .custom i ∧ s'.customUsed i = false) →
      Inv lo hi s' live none := by
    intro s' harea hslab hmem hcache hused
    have hself : s'.cache c = { s.cache c with active := false } := by
      rw [hcache]
      exact modifyCache_self _ _ _
    have hother : ∀ c' ≠ c, s'.cache c' = s.cache c' := fun c' hcc => by
      rw [hcache]
      exact modifyCache_of_ne _ _ hcc
    have hnil' : s'.slabs c = [] := by
      rw [State.slabs, hself]
      exact hnil
    refine h.of_no_slabs hnil hnil' harea hslab hmem hother ?_ (fun i hi => ?_) fun i hi => ?_
    · refine ⟨?_, ?_, ?_, ?_, ?_, ?_, ?_, ?_, ?_, fun a ha => absurd ha (hno a)⟩
      · rw [hself]
        exact hc.size
      · rw [hself]
        exact hc.room
      · rw [hnil']
        exact fun p hp => absurd hp List.not_mem_nil
      · rw [hself]
        simp only [hpart]
        exact fun p hp => absurd hp List.not_mem_nil
      · rw [hself]
        simp only [hfull]
        exact fun p hp => absurd hp List.not_mem_nil
      · rw [hnil']
        exact List.nodup_nil
      · rw [hnil', hself, ← hnil]
        exact hc.total
      · rw [hself]
        exact hc.partialCount
      · rw [hself]
        exact hc.inuse
    · rcases hused i with he | ⟨rfl, -⟩
      · exact h.unused i (he ▸ hi)
      · exact hno
    · have hcc : CacheId.custom i ≠ c := by
        rintro rfl
        rw [hself] at hi
        exact absurd hi (by simp)
      rw [hother _ hcc] at hi
      rcases hused i with he | ⟨rfl, -⟩
      · exact he.trans (h.active i hi)
      · exact absurd rfl hcc
  split
  · exact hmain _ rfl rfl rfl rfl fun i => Or.inl rfl
  · cases c with
    | default k => exact hmain _ rfl rfl rfl rfl fun i => Or.inl rfl
    | custom k =>
      refine hmain _ rfl rfl rfl rfl fun i => ?_
      by_cases hik : i = k
      · subst hik
        exact Or.inr ⟨rfl, Function.update_self _ _ _⟩
      · exact Or.inl (Function.update_of_ne hik _ _)

/-! ### Objects -/

/-- A live object passes the checks of the public free functions. -/
theorem Inv.kva2pageLocal_eq (h : Inv lo hi s live none) {a : ℕ} (hlive : (c, a) ∈ live) :
    kva2pageLocal a s = some (a / PGSIZE) ∧ (s.slab (a / PGSIZE)).magic = SLUB_SLAB_MAGIC ∧
      (s.slab (a / PGSIZE)).cache = c := by
  obtain ⟨hp, is, i, hrep, -⟩ := h.live_slab hlive
  obtain ⟨bs, harea, -⟩ := h.area
  have hin := (h.inside ⟨c, hp⟩).2
  have hnp := harea.npage
  exact ⟨if_pos (by omega), hrep.magic, hrep.cache⟩

theorem slubCacheFree_spec (hsize : hi - lo + 1 < 2 ^ 32) (h : Inv lo hi s live none) {a : ℕ}
    (hlive : (c, a) ∈ live) :
    ∃ s', slubCacheFree c a s = some s' ∧ Inv lo hi s' (live.erase (c, a)) none := by
  obtain ⟨hpage, hmagic, hcache⟩ := h.kva2pageLocal_eq hlive
  rw [slubCacheFree, hpage, Option.bind_eq_bind, Option.bind_some, slubAssert_pos hmagic,
    Option.bind_eq_bind, Option.bind_some, slubAssert_pos hcache, Option.bind_some]
  exact slubCacheDoFree_spec hsize h hlive

theorem slubFree_spec (hsize : hi - lo + 1 < 2 ^ 32) (h : Inv lo hi s live none) {a : ℕ}
    (hlive : (c, a) ∈ live) :
    ∃ s', slubFree a s = some s' ∧ Inv lo hi s' (live.erase (c, a)) none := by
  obtain ⟨hpage, hmagic, hcache⟩ := h.kva2pageLocal_eq hlive
  rw [slubFree, hpage, Option.bind_eq_bind, Option.bind_some, slubAssert_pos hmagic,
    Option.bind_eq_bind, Option.bind_some, hcache]
  exact slubCacheDoFree_spec hsize h hlive

/-- A client stores byte `b` at address `a`. -/
def State.store (s : State) (a : ℕ) (b : UInt8) : State :=
  { s with mem := Function.update s.mem a b }

/-- A write into a live object leaves the invariant: no chain goes through the object. -/
theorem Inv.write (h : Inv lo hi s live none) {a off : ℕ} (hlive : (c, a) ∈ live)
    (hoff : off < (s.cache c).objSize) (b : UInt8) :
    Inv lo hi (s.store (a + off) b) live none := by
  have hc := h.caches c
  obtain ⟨hp, is, i, hrep, hil, ha⟩ := h.live_slab hlive
  generalize a / PGSIZE = p at hp hrep ha
  subst ha
  obtain ⟨h2, hobj⟩ := hc.size hrep.pos
  have hnot := (hrep.live i hil).mp hlive
  have hl : Local s (s.store (slotAddr p (s.cache c).objStride i + off) b) live live c p := by
    refine ⟨fun _ _ => rfl, fun _ _ => rfl, fun q hq e h₁ h₂ => Function.update_of_ne ?_ _ _,
      fun _ _ => ⟨fun _ => Iff.rfl, rfl⟩, fun _ _ => Iff.rfl, ⟨rfl, rfl, rfl⟩, rfl⟩
    rcases slot_other_page hc.room hil hq h₁ h₂ with h' | h' <;> omega
  have hrep' : SlabRep (s.store (slotAddr p (s.cache c).objStride i + off) b) live c p is := by
    refine ⟨hrep.magic, hrep.cache, hrep.page, hrep.capacity, hrep.stride, hrep.pos, ?_,
      hrep.nodup, hrep.count, hrep.bound, hrep.live⟩
    refine hrep.chain.congr fun j hj => ?_
    have hji : i ≠ j := fun he => hnot (he ▸ hj)
    have hapart := slot_apart p (s.cache c).objStride hji
    have hbyte : ∀ e, slotAddr p (s.cache c).objStride j ≤ e →
        e < slotAddr p (s.cache c).objStride j + 2 →
        (s.store (slotAddr p (s.cache c).objStride i + off) b).mem e = s.mem e :=
      fun e h₁ h₂ => Function.update_of_ne (by omega) _ _
    show link _ p (s.cache c).objStride j = link s.mem p (s.cache c).objStride j
    exact read16_congr (hbyte _ le_rfl (by omega)) (hbyte _ (by omega) (by omega))
  refine ⟨hl.caches h.caches (fun c' hcc hp' => hcc (h.cache_unique hp' hp))
    (fun q hq => nomatch hq) ?_, h.nodup, h.area, h.inside, h.unused, h.active⟩
  exact hl.cacheInv hc (fun q hq => nomatch hq) hp hrep' (List.Perm.refl _) (fun q hq _ => hq)
    (fun q hq _ => hq) (hc.onPartial p) (hc.onFull p) rfl hc.partialCount hc.inuse
    fun e he => Or.inl he

theorem slubSelectCache_default {size : ℕ} (h : slubSelectCache size s = some c) :
    ∃ i, c = .default i := by
  rw [slubSelectCache, Option.map_eq_some_iff] at h
  obtain ⟨i, -, rfl⟩ := h
  exact ⟨i, rfl⟩

/-! ### Clients -/

/-- The object layer together with its clients: the live objects with their caches, and the caches
whose pointers clients have. -/
structure Client where
  s : State
  live : List (CacheId × ℕ)
  known : List CacheId

/-- The calls of clients, and the write of a byte into an object. -/
inductive Call
  | create (objSize align : ℕ)
  | destroy (c : CacheId)
  | cacheAlloc (c : CacheId)
  | cacheFree (c : CacheId) (a : ℕ)
  | alloc (size : ℕ)
  | free (c : CacheId) (a : ℕ)
  | write (c : CacheId) (a off : ℕ) (b : UInt8)

/-- The effect of a call; `none` when an assertion fails. -/
def Client.call (x : Client) : Call → Option Client
  | .create objSize align => do
    let (r, s) ← slubCacheCreate objSize align x.s
    some { x with s := s, known := r.toList ++ x.known }
  | .destroy c => do
    let s ← slubCacheDestroy c x.s
    some { x with s := s }
  | .cacheAlloc c => do
    let (r, s) ← slubCacheAlloc c x.s
    some { x with s := s, live := r.toList.map (fun a => (c, a)) ++ x.live }
  | .cacheFree c a => do
    let s ← slubCacheFree c a x.s
    some { x with s := s, live := x.live.erase (c, a) }
  | .alloc size => do
    let (r, s) ← slubAlloc size x.s
    match slubSelectCache size x.s with
    | some c => some { x with s := s, live := r.toList.map (fun a => (c, a)) ++ x.live }
    | none => some { x with s := s }
  | .free c a => do
    let s ← slubFree a x.s
    some { x with s := s, live := x.live.erase (c, a) }
  | .write _ a off b => some { x with s := x.s.store (a + off) b }

/-- Only known caches are used, only live objects are freed, once each and to their own cache, and
writes stay inside live objects. -/
def Call.Legal (x : Client) : Call → Prop
  | .create _ _ => True
  | .destroy c => c ∈ x.known
  | .cacheAlloc c => c ∈ x.known
  | .cacheFree c a => (c, a) ∈ x.live
  | .alloc _ => True
  | .free c a => (c, a) ∈ x.live
  | .write c a off _ => (c, a) ∈ x.live ∧ off < (x.s.cache c).objSize

/-- No wrap-around in the sizes of a new cache, no destruction of a cache with live objects. -/
def Call.Safe (x : Client) : Call → Prop
  | .create objSize align => NoWrap objSize align
  | .destroy c => ∀ a, (c, a) ∉ x.live
  | _ => True

/-- One safe call. -/
def SafeStep (x x' : Client) : Prop :=
  ∃ call : Call, call.Legal x ∧ call.Safe x ∧ x.call call = some x'

/-- The state after `slub_init` and `slub_init_memmap(base, n)`. -/
def Client.start (base n : ℕ) (area : FreeArea) (slab : ℕ → Slab) (mem : Mem) : Option Client :=
  (slubInitMemmap base n (slubInit area slab mem)).map fun s =>
    ⟨s, [], (List.finRange 12).map CacheId.default⟩

theorem noWrap_default : ∀ i : Fin 12, NoWrap (slubDefaultSizes i) SLUB_MIN_ALIGN := by
  unfold NoWrap
  decide

theorem Client.inv_start {base n : ℕ} {area : FreeArea} (hn : 0 < n) (hsize : n + 1 < 2 ^ 32)
    (hres : ∀ i, base ≤ i → i < base + n → (area.page i).reserved = true)
    (hnp : base + n ≤ area.npage) (slab : ℕ → Slab) (mem : Mem) :
    ∃ x, Client.start base n area slab mem = some x ∧
      Inv base (base + n) x.s x.live none := by
  obtain ⟨area', heq, hrep⟩ := initMemmap_spec .slub hn hres hnp hsize
  have heq' : slubPageInitMemmap base n (areaInit area) = some area' := heq
  have hfresh : ∀ c, ∃ objSize, Fresh ((slubInit area slab mem).cache c) objSize := by
    intro c
    cases c with
    | default i =>
      obtain ⟨ch, hsetup, hf⟩ := slubCacheSetup_spec (noWrap_default i) true
      refine ⟨slubDefaultSizes i, ?_⟩
      simp only [slubInit, hsetup, Option.getD_some]
      exact hf
    | custom i =>
      exact ⟨0, rfl, ⟨rfl, rfl⟩, ⟨rfl, rfl, rfl⟩, fun h0 => absurd h0 (Nat.lt_irrefl 0),
        (Nat.zero_mul 0).trans_le (Nat.zero_le _)⟩
  refine ⟨_, by
    rw [start, slubInitMemmap]
    simp only [slubInit, heq', Option.map_some]
    rfl, ?_⟩
  have hpages : slabPages (slubInit area slab mem) = ∅ := by
    refine Set.eq_empty_of_forall_notMem ?_
    rintro p ⟨c, hp⟩
    obtain ⟨objSize, hf⟩ := hfresh c
    rw [State.slabs, hf.lists.1, hf.lists.2] at hp
    exact absurd hp List.not_mem_nil
  refine ⟨fun c => ?_, List.nodup_nil, ⟨_, hrep, sparse_cons.mpr ⟨hn, sparse_nil, by simp⟩, ?_⟩, ?_,
    fun _ _ a => List.not_mem_nil, fun i hi => absurd hi Bool.false_ne_true⟩
  · obtain ⟨objSize, hf⟩ := hfresh c
    exact CacheInv.of_fresh hf fun a => List.not_mem_nil
  · change _ = _ \ slabPages (slubInit area slab mem)
    rw [hpages, Set.sdiff_empty, cover_cons, cover_nil, Set.union_empty]
  · change slabPages (slubInit area slab mem) ⊆ _
    rw [hpages]
    exact Set.empty_subset _

/-- Every safe call returns and keeps the invariant. -/
theorem Client.call_spec {x : Client} (hsize : hi - lo + 1 < 2 ^ 32) (h : Inv lo hi x.s x.live none)
    {call : Call} (hlegal : call.Legal x) (hsafe : call.Safe x) :
    ∃ x', x.call call = some x' ∧ Inv lo hi x'.s x'.live none := by
  cases call with
  | create objSize align =>
    obtain ⟨r, s', heq, hinv⟩ := slubCacheCreate_spec h hsafe
    exact ⟨_, by simp only [Client.call, heq, Option.bind_eq_bind, Option.bind_some]; rfl, hinv⟩
  | destroy c =>
    obtain ⟨s', heq, hinv⟩ := slubCacheDestroy_spec h hsafe
    exact ⟨_, by simp only [Client.call, heq, Option.bind_eq_bind, Option.bind_some]; rfl, hinv⟩
  | cacheAlloc c =>
    by_cases hactive : (x.s.cache c).active = true
    · have heq₀ : slubCacheAlloc c x.s = slubCacheDoAlloc c x.s := by
        rw [slubCacheAlloc, hactive]
        rfl
      rcases slubCacheDoAlloc_spec h (c := c) fun i hi => h.active i (hi ▸ hactive) with
        heq | ⟨a, s', heq, hinv⟩
      · refine ⟨_, by
          simp only [Client.call, heq₀, heq, Option.bind_eq_bind, Option.bind_some]
          rfl, h⟩
      · refine ⟨_, by
          simp only [Client.call, heq₀, heq, Option.bind_eq_bind, Option.bind_some]
          rfl, hinv⟩
    · have heq : slubCacheAlloc c x.s = some (none, x.s) := by
        rw [slubCacheAlloc, Bool.eq_false_of_not_eq_true hactive]
        rfl
      exact ⟨_, by simp only [Client.call, heq, Option.bind_eq_bind, Option.bind_some]; rfl, h⟩
  | cacheFree c a =>
    obtain ⟨s', heq, hinv⟩ := slubCacheFree_spec hsize h hlegal
    exact ⟨_, by simp only [Client.call, heq, Option.bind_eq_bind, Option.bind_some]; rfl, hinv⟩
  | alloc size =>
    by_cases h0 : size = 0
    · have heq : slubAlloc size x.s = some (none, x.s) := if_pos h0
      simp only [Client.call, heq, Option.bind_eq_bind, Option.bind_some]
      split
      · exact ⟨_, rfl, h⟩
      · exact ⟨_, rfl, h⟩
    · have heq₀ : slubAlloc size x.s = _ := if_neg h0
      simp only [Client.call, heq₀, Option.bind_eq_bind]
      cases hsel : slubSelectCache size x.s with
      | none => exact ⟨_, rfl, h⟩
      | some c =>
        obtain ⟨i, rfl⟩ := slubSelectCache_default hsel
        rcases slubCacheDoAlloc_spec h (c := .default i) (fun k hk => by cases hk) with
          heq | ⟨a, s', heq, hinv⟩
        · simp only [heq, Option.bind_some]
          exact ⟨_, rfl, h⟩
        · simp only [heq, Option.bind_some]
          exact ⟨_, rfl, hinv⟩
  | free c a =>
    obtain ⟨s', heq, hinv⟩ := slubFree_spec hsize h hlegal
    exact ⟨_, by simp only [Client.call, heq, Option.bind_eq_bind, Option.bind_some]; rfl, hinv⟩
  | write c a off b => exact ⟨_, rfl, h.write hlegal.1 hlegal.2 b⟩

/-! ### The main theorem -/

/-- What holds between calls. -/
structure WellFormed (base n : ℕ) (x : Client) : Prop where
  /-- The chain of a slab visits `free_count` distinct slots, none of them live. -/
  chain : ∀ c, ∀ p ∈ x.s.slabs c, ∃ is,
    Chain (link x.s.mem p (x.s.slab p).objStride) SLUB_FREELIST_END (x.s.slab p).freeHead is ∧
      is.length = (x.s.slab p).freeCount ∧ is.Nodup ∧
      ∀ i ∈ is, i < (x.s.slab p).capacity ∧ ∀ c', (c', slotAddr p (x.s.slab p).objStride i) ∉ x.live
  /-- A live object lies in the page of a slab of its cache, past the header. -/
  inside : ∀ c a, (c, a) ∈ x.live → ∃ p ∈ x.s.slabs c,
    p * PGSIZE + slabHeaderSize ≤ a ∧ a + (x.s.cache c).objSize ≤ (p + 1) * PGSIZE
  disjoint : x.live.Pairwise fun o o' =>
    o.2 + (x.s.cache o.1).objSize ≤ o'.2 ∨ o'.2 + (x.s.cache o'.1).objSize ≤ o.2
  onPartial : ∀ c, ∀ p ∈ x.s.slabs c, (p ∈ (x.s.cache c).partialList ↔ 0 < (x.s.slab p).freeCount)
  onFull : ∀ c, ∀ p ∈ x.s.slabs c, (p ∈ (x.s.cache c).fullList ↔ (x.s.slab p).freeCount = 0)
  nodup : ∀ c, (x.s.slabs c).Nodup
  slabsTotal : ∀ c, (x.s.cache c).slabsTotal = (x.s.slabs c).length
  slabsPartial : ∀ c, (x.s.cache c).slabsPartial = (x.s.cache c).partialList.length
  inuseObjs : ∀ c, (x.s.cache c).inuseObjs = x.live.countP fun o => o.1 = c
  /-- A cache without live objects holds no slab. -/
  noSlab : ∀ c, (∀ a, (c, a) ∉ x.live) → x.s.slabs c = []
  /-- A managed page is free in the page layer or a slab of one cache, never both. -/
  pages : ∃ bs, freeBlocks x.s.area = some bs ∧
    cover bs = Set.Ico base (base + n) \ slabPages x.s
  unique : ∀ c c' p, p ∈ x.s.slabs c → p ∈ x.s.slabs c' → c = c'

/-- Distinct live objects do not overlap. -/
theorem Inv.apart (h : Inv lo hi s live none) {o o' : CacheId × ℕ} (ho : o ∈ live)
    (ho' : o' ∈ live) (hne : o ≠ o') :
    o.2 + (s.cache o.1).objSize ≤ o'.2 ∨ o'.2 + (s.cache o'.1).objSize ≤ o.2 := by
  obtain ⟨c, a⟩ := o
  obtain ⟨c', a'⟩ := o'
  obtain ⟨hp, is, i, hrep, hil, ha⟩ := h.live_slab ho
  obtain ⟨hp', is', i', hrep', hil', ha'⟩ := h.live_slab ho'
  generalize a / PGSIZE = p at hp hrep ha
  generalize a' / PGSIZE = p' at hp' hrep' ha'
  subst ha ha'
  have hobj := ((h.caches c).size hrep.pos).2
  have hobj' := ((h.caches c').size hrep'.pos).2
  by_cases hpp : p = p'
  · subst hpp
    obtain rfl := h.cache_unique hp hp'
    have hii : i ≠ i' := by
      rintro rfl
      exact hne rfl
    have := slot_apart p (s.cache c).objStride hii
    simp only
    omega
  · obtain ⟨h₁, h₂⟩ := slot_in_page (p := p) (h.caches c).room hil
    obtain ⟨h₃, h₄⟩ := slot_in_page (p := p') (h.caches c').room hil'
    simp only [PGSIZE, slabHeaderSize] at h₁ h₂ h₃ h₄ ⊢
    rcases Nat.lt_or_gt_of_ne hpp with hlt | hgt <;> omega

theorem Inv.wellFormed {base n : ℕ} {x : Client} (h : Inv base (base + n) x.s x.live none) :
    WellFormed base n x := by
  refine ⟨fun c p hp => ?_, fun c a ha => ?_, ?_, fun c p hp => ?_, fun c p hp => ?_,
    fun c => (h.caches c).nodup, fun c => (h.caches c).total, fun c => (h.caches c).partialCount,
    fun c => (h.caches c).inuse, fun c hno => (h.caches c).slabs_eq_nil hno, ?_,
    fun c c' p hp hp' => h.cache_unique hp hp'⟩
  · obtain ⟨is, hrep⟩ := (h.caches c).slabs p hp
    rw [hrep.stride, hrep.capacity, hrep.count]
    refine ⟨is, hrep.chain, rfl, hrep.nodup, fun i hi => ⟨hrep.bound i hi, fun c' hlive => ?_⟩⟩
    have hil := hrep.bound i hi
    have hp' := (h.live_slab hlive).1
    rw [slot_page (h.caches c).room hil ((h.caches c).size hrep.pos).1] at hp'
    obtain rfl := h.cache_unique hp hp'
    exact (hrep.live i hil).mp hlive hi
  · obtain ⟨p, hp, i, hil, rfl⟩ := (h.caches c).live a ha
    obtain ⟨h₁, h₂⟩ := slot_in_page (p := p) (h.caches c).room hil
    have := ((h.caches c).size (by omega)).2
    exact ⟨p, hp, h₁, by omega⟩
  · refine h.nodup.imp_of_mem fun {o o'} ho ho' hne => ?_
    exact h.apart ho ho' hne
  · refine ⟨fun hpart => ((h.caches c).onPartial p hpart).1, fun hpos => ?_⟩
    refine (List.mem_append.mp hp).resolve_right fun hfull => ?_
    exact absurd ((h.caches c).onFull p hfull) (Nat.ne_of_gt hpos)
  · refine ⟨(h.caches c).onFull p, fun h0 => ?_⟩
    refine (List.mem_append.mp hp).resolve_left fun hpart => ?_
    exact absurd h0 (Nat.ne_of_gt ((h.caches c).onPartial p hpart).1)
  · obtain ⟨bs, hrep, hsparse, hcov⟩ := h.area
    exact ⟨bs, freeBlocks_eq hrep hsparse, hcov⟩

/-- **The object layer.**  After `slub_init` and one `slub_init_memmap` of reserved pages, in every
run of safe calls the object layer is well formed, and every safe call returns. -/
theorem slub_well_formed {base n : ℕ} {area : FreeArea} (slab : ℕ → Slab) (mem : Mem) (hn : 0 < n)
    (hsize : n + 1 < 2 ^ 32)
    (hres : ∀ i, base ≤ i → i < base + n → (area.page i).reserved = true)
    (hnp : base + n ≤ area.npage) :
    ∃ x₀, Client.start base n area slab mem = some x₀ ∧ ∀ x, ReflTransGen SafeStep x₀ x →
      WellFormed base n x ∧
        ∀ call : Call, call.Legal x → call.Safe x → ∃ x', x.call call = some x' := by
  obtain ⟨x₀, hstart, hinv₀⟩ := Client.inv_start hn hsize hres hnp slab mem
  have hsize' : base + n - base + 1 < 2 ^ 32 := by omega
  refine ⟨x₀, hstart, fun x hrun => ?_⟩
  have hinv : Inv base (base + n) x.s x.live none := by
    refine Transition.invariant (P := fun y => Inv base (base + n) y.s y.live none) ?_ hrun hinv₀
    rintro y y' hy ⟨call, hlegal, hsafe, heq⟩
    obtain ⟨z, heq', hz⟩ := Client.call_spec hsize' hy hlegal hsafe
    obtain rfl := Option.some.inj (heq'.symm.trans heq)
    exact hz
  refine ⟨hinv.wellFormed, fun call hlegal hsafe => ?_⟩
  obtain ⟨x', heq, -⟩ := Client.call_spec hsize' hinv hlegal hsafe
  exact ⟨x', heq⟩

/-- The contents of an unused page. -/
def emptySlab : Slab := ⟨0, .default 0, 0, 0, 0, 0, 0⟩

/-- Two pages, right after `slub_init_memmap`. -/
theorem slub_well_formed_two :
    ∃ x₀, Client.start 0 2 (bootArea 2) (fun _ => emptySlab) (fun _ => 0) = some x₀ ∧
      ∀ x, ReflTransGen SafeStep x₀ x → WellFormed 0 2 x ∧
        ∀ call : Call, call.Legal x → call.Safe x → ∃ x', x.call call = some x' :=
  slub_well_formed (fun _ => emptySlab) (fun _ => 0) (by decide) (by decide) (fun _ _ _ => rfl)
    (by decide)

/-- A run that creates a cache, takes one object from it and destroys the cache: a legal call that
does not return. -/
theorem destroy_with_live_object_panics :
    ∃ x₀ x, Client.start 0 1 (bootArea 1) (fun _ => emptySlab) (fun _ => 0) = some x₀ ∧
      ReflTransGen (fun y y' => ∃ call : Call, call.Legal y ∧ y.call call = some y') x₀ x ∧
      (Call.destroy (.custom 0)).Legal x ∧ x.call (.destroy (.custom 0)) = none :=
  ⟨_, _, rfl, (ReflTransGen.single ⟨.create 4000 8, trivial, rfl⟩).tail
    ⟨.cacheAlloc (.custom 0), List.mem_cons_self, rfl⟩, List.mem_cons_self, rfl⟩

end Ucore.Slub
