import Mathlib.Data.List.FinRange
import Ucore.FreeList.Model
import Ucore.Lib.Memory

/-!
# The SLUB object layer (`lab2/kern/mm/slub_pmm.c`)

A cache hands out objects of one size from slabs, each one page of the page layer: the header
`struct slub_slab` in its first 48 bytes, then `capacity` slots of `obj_stride` bytes.  Free slots
are chained by index, the link in the first two bytes of the slot itself; `SLUB_FREELIST_END` ends
the chain.  A slab with free slots is on the `partial` list of its cache, one without on `full`, and
one whose slots are all free goes back to the page layer at once.

Addresses are offsets from the kernel address of `pages[0]`, so page `p` is the bytes from
`p * PGSIZE` on.  The headers are kept apart from the bytes of the slots: no slot reaches into a
header.  A list of slabs is the sequence of their pages from `list_next(head)` on.  The names of the
caches and the list `slub_cache_list`, which only `slub_dump_stats` reads, are left out.

An operation returns `none` when a `SLUB_ASSERT` fails or a division by zero would be executed.
-/

namespace Ucore.Slub

open FreeList Memory

def PGSIZE : ℕ := 4096

def SLUB_SLAB_MAGIC : ℕ := 0xFFFFFFFF

def SLUB_FREELIST_END : ℕ := 0xFFFF

def SLUB_MIN_ALIGN : ℕ := 8

/-- `sizeof(struct slub_slab)`. -/
def slabHeaderSize : ℕ := 48

/-- `slub_default_sizes`. -/
def slubDefaultSizes (i : Fin 12) : ℕ :=
  [8, 16, 32, 48, 64, 96, 128, 192, 256, 384, 512, 768].getD i 0

/-- A pointer into `slub_default_caches` or `slub_custom_caches`. -/
inductive CacheId
  | default (i : Fin 12)
  | custom (i : Fin 8)
  deriving DecidableEq, Repr

/-- `struct slub_cache`. -/
structure Cache where
  objSize : ℕ
  objStride : ℕ
  align : ℕ
  objsPerSlab : ℕ
  slabsTotal : ℕ
  slabsPartial : ℕ
  inuseObjs : ℕ
  isDefault : Bool
  active : Bool
  partialList : List ℕ
  fullList : List ℕ
  deriving Repr

/-- `struct slub_slab`. -/
structure Slab where
  magic : ℕ
  cache : CacheId
  page : ℕ
  freeCount : ℕ
  capacity : ℕ
  freeHead : ℕ
  objStride : ℕ
  deriving Repr

/-- The page layer, the caches, and the contents of the slab pages. -/
structure State where
  area : FreeArea
  cache : CacheId → Cache
  customUsed : Fin 8 → Bool
  slab : ℕ → Slab
  mem : Mem

/-- An assignment to the fields of a cache. -/
def State.modifyCache (s : State) (c : CacheId) (f : Cache → Cache) : State :=
  { s with cache := Function.update s.cache c (f (s.cache c)) }

/-- An assignment to the fields of the header in page `p`. -/
def State.modifySlab (s : State) (p : ℕ) (f : Slab → Slab) : State :=
  { s with slab := Function.update s.slab p (f (s.slab p)) }

/-- `SLUB_ASSERT`. -/
def slubAssert (cond : Prop) [Decidable cond] : Option Unit := if cond then some () else none

/-- `ROUNDUP(a, n)` on `size_t`. -/
def roundUp (a n : ℕ) : ℕ := (a + n - 1) % 2 ^ 64 - (a + n - 1) % 2 ^ 64 % n

/-- Slot `i` of the slab in page `p`: `slab_obj_base(slab) + i * slab->obj_stride`. -/
def slotAddr (p stride i : ℕ) : ℕ := p * PGSIZE + slabHeaderSize + i * stride

/-! ### Caches -/

/-- The alignment that `slub_cache_setup` uses. -/
def setupAlign (align : ℕ) : ℕ :=
  let align := if align = 0 then SLUB_MIN_ALIGN else align
  if align < 2 then 2 else align

/-- `slub_cache_setup`: the fields of the cache; `none` when the stride wraps to zero and
`usable / stride` divides by it. -/
def slubCacheSetup (objSize align : ℕ) (isDefault : Bool) : Option Cache := do
  let align := setupAlign align
  let stride := if objSize < 2 then 2 else objSize
  let stride := roundUp stride align
  let usable := PGSIZE - slabHeaderSize
  let objsPerSlab ←
    if usable ≥ stride then do
      slubAssert (stride ≠ 0)
      some (usable / stride % 2 ^ 16)
    else some 0
  some ⟨objSize, stride, align, objsPerSlab, 0, 0, 0, isDefault, true, [], []⟩

/-- `slub_select_cache`. -/
def slubSelectCache (size : ℕ) (s : State) : Option CacheId :=
  ((List.finRange 12).find? fun i =>
    (s.cache (.default i)).active && size ≤ (s.cache (.default i)).objSize).map CacheId.default

/-- `slub_alloc_cache_slot`. -/
def slubAllocCacheSlot (s : State) : Option (Fin 8 × State) :=
  ((List.finRange 8).find? fun i => !s.customUsed i).map fun i =>
    (i, { s with customUsed := Function.update s.customUsed i true })

/-- `slub_release_cache_slot`. -/
def slubReleaseCacheSlot (c : CacheId) (s : State) : State :=
  match c with
  | .default _ => s
  | .custom i => { s with customUsed := Function.update s.customUsed i false }

/-! ### Slabs -/

/-- The loop of `slub_new_slab` that chains the slots from `i` on; `k` of them remain. -/
def linkSlots (p stride capacity : ℕ) : ℕ → ℕ → Mem → Mem
  | 0, _, m => m
  | k + 1, i, m =>
    let next := if i + 1 < capacity then i + 1 else SLUB_FREELIST_END
    linkSlots p stride capacity k (i + 1) (write16 m (slotAddr p stride i) next)

/-- `slub_new_slab`: the page of the new slab (`none` for `NULL`) and the new state. -/
def slubNewSlab (c : CacheId) (s : State) : Option (Option ℕ × State) := do
  slubAssert ((s.cache c).objsPerSlab > 0)
  let (page, area) ← slubPageAlloc 1 s.area
  match page with
  | none => some (none, { s with area := area })
  | some p =>
    let capacity := (s.cache c).objsPerSlab
    let stride := (s.cache c).objStride % 2 ^ 16
    let slab : Slab :=
      { magic := SLUB_SLAB_MAGIC, cache := c, page := p, freeCount := capacity,
        capacity := capacity, freeHead := if capacity = 0 then SLUB_FREELIST_END else 0,
        objStride := stride }
    let s := { s with
      area := area
      slab := Function.update s.slab p slab
      mem := linkSlots p stride capacity capacity 0 s.mem }
    let s := s.modifyCache c fun ch => { ch with
      slabsTotal := ch.slabsTotal + 1
      slabsPartial := ch.slabsPartial + 1
      partialList := p :: ch.partialList }
    some (some p, s)

/-- `list_del(&slab->link)` for a slab of cache `c`, on whichever list it is. -/
def slabListDel (c : CacheId) (p : ℕ) (s : State) : State :=
  s.modifyCache c fun ch => { ch with
    partialList := ch.partialList.erase p
    fullList := ch.fullList.erase p }

/-- `slub_release_slab`. -/
def slubReleaseSlab (p : ℕ) (s : State) : Option State := do
  slubAssert ((s.slab p).magic = SLUB_SLAB_MAGIC)
  let c := (s.slab p).cache
  let s := s.modifySlab p fun sl => { sl with magic := 0 }
  slubAssert ((s.slab p).freeCount = (s.slab p).capacity)
  slubAssert ((s.cache c).slabsTotal > 0)
  let s := s.modifyCache c fun ch => { ch with slabsTotal := ch.slabsTotal - 1 }
  let area ← slubPageFree (s.slab p).page 1 s.area
  some { s with area := area }

/-- The part of `slub_cache_do_alloc` that takes a slot from the first partial slab. -/
def slubTakeSlot (c : CacheId) (s : State) : Option (Option ℕ × State) :=
  match (s.cache c).partialList with
  | [] => none
  | p :: _ => do
    slubAssert ((s.slab p).freeCount > 0)
    let slot := slotAddr p (s.slab p).objStride (s.slab p).freeHead
    let s := s.modifySlab p fun sl => { sl with
      freeHead := read16 s.mem slot
      freeCount := sl.freeCount - 1 }
    let s := s.modifyCache c fun ch => { ch with inuseObjs := ch.inuseObjs + 1 }
    let s ←
      if (s.slab p).freeCount = 0 then do
        let s := slabListDel c p s
        let s := s.modifyCache c fun ch => { ch with fullList := p :: ch.fullList }
        slubAssert ((s.cache c).slabsPartial > 0)
        some (s.modifyCache c fun ch => { ch with slabsPartial := ch.slabsPartial - 1 })
      else some s
    some (some slot, { s with mem := memset s.mem slot 0 (s.cache c).objSize })

/-- `slub_cache_do_alloc`. -/
def slubCacheDoAlloc (c : CacheId) (s : State) : Option (Option ℕ × State) :=
  if (s.cache c).objsPerSlab = 0 then some (none, s) else
  if (s.cache c).partialList = [] then do
    let (slab, s) ← slubNewSlab c s
    match slab with
    | none => some (none, s)
    | some _ => slubTakeSlot c s
  else slubTakeSlot c s

/-- The part of `slub_cache_do_free` that puts the slot back on the chain. -/
def slubPutSlot (c : CacheId) (p obj : ℕ) (s : State) : Option State := do
  let offset := (obj + 2 ^ 64 - slotAddr p (s.slab p).objStride 0) % 2 ^ 64
  slubAssert (offset % (s.slab p).objStride = 0)
  let idx := offset / (s.slab p).objStride % 2 ^ 16
  let s := { s with mem := write16 s.mem obj (s.slab p).freeHead }
  let s := s.modifySlab p fun sl => { sl with freeHead := idx, freeCount := sl.freeCount + 1 }
  slubAssert ((s.cache c).inuseObjs > 0)
  let s := s.modifyCache c fun ch => { ch with inuseObjs := ch.inuseObjs - 1 }
  if (s.slab p).freeCount = 1 then
    let s := slabListDel c p s
    some (s.modifyCache c fun ch => { ch with
      partialList := p :: ch.partialList
      slabsPartial := ch.slabsPartial + 1 })
  else some s

/-- `slub_cache_do_free`. -/
def slubCacheDoFree (c : CacheId) (p obj : ℕ) (s : State) : Option State := do
  let s ← slubPutSlot c p obj s
  if (s.slab p).freeCount = (s.slab p).capacity then
    let s := slabListDel c p s
    slubAssert ((s.cache c).slabsPartial > 0)
    let s := s.modifyCache c fun ch => { ch with slabsPartial := ch.slabsPartial - 1 }
    slubReleaseSlab p s
  else some s

/-- The loop of `slub_cache_cleanup`; every turn takes a slab off the partial list. -/
def cleanupLoop (c : CacheId) : ℕ → State → Option State
  | 0, s => if (s.cache c).partialList = [] then some s else none
  | k + 1, s =>
    match (s.cache c).partialList with
    | [] => some s
    | p :: _ => do
      let s := slabListDel c p s
      slubAssert ((s.slab p).freeCount = (s.slab p).capacity)
      slubAssert ((s.cache c).slabsPartial > 0)
      let s := s.modifyCache c fun ch => { ch with slabsPartial := ch.slabsPartial - 1 }
      let s ← slubReleaseSlab p s
      cleanupLoop c k s

/-- `slub_cache_cleanup`. -/
def slubCacheCleanup (c : CacheId) (s : State) : Option State := do
  slubAssert ((s.cache c).inuseObjs = 0)
  let s ← cleanupLoop c (s.cache c).partialList.length s
  slubAssert ((s.cache c).fullList = [])
  some (s.modifyCache c fun ch => { ch with active := false })

/-! ### The public functions -/

/-- `slub_cache_create`. -/
def slubCacheCreate (objSize align : ℕ) (s : State) : Option (Option CacheId × State) :=
  match slubAllocCacheSlot s with
  | none => some (none, s)
  | some (i, s) => do
    let ch ← slubCacheSetup objSize align false
    some (some (.custom i), s.modifyCache (.custom i) fun _ => ch)

/-- `slub_cache_destroy`, of a cache that is not `NULL`. -/
def slubCacheDestroy (c : CacheId) (s : State) : Option State := do
  let s ← slubCacheCleanup c s
  some (if (s.cache c).isDefault then s else slubReleaseCacheSlot c s)

/-- `slub_cache_alloc`, of a cache that is not `NULL`. -/
def slubCacheAlloc (c : CacheId) (s : State) : Option (Option ℕ × State) :=
  if !(s.cache c).active then some (none, s) else slubCacheDoAlloc c s

/-- `kva2page_local`. -/
def kva2pageLocal (kva : ℕ) (s : State) : Option ℕ :=
  if kva / PGSIZE < s.area.npage then some (kva / PGSIZE) else none

/-- `slub_cache_free`, of a cache and an object that are not `NULL`. -/
def slubCacheFree (c : CacheId) (obj : ℕ) (s : State) : Option State := do
  let p ← kva2pageLocal obj s
  slubAssert ((s.slab p).magic = SLUB_SLAB_MAGIC)
  slubAssert ((s.slab p).cache = c)
  slubCacheDoFree c p obj s

/-- `slub_alloc`. -/
def slubAlloc (size : ℕ) (s : State) : Option (Option ℕ × State) :=
  if size = 0 then some (none, s) else
  match slubSelectCache size s with
  | some c => slubCacheDoAlloc c s
  | none => some (none, s)

/-- `slub_free`, of a pointer that is not `NULL`. -/
def slubFree (ptr : ℕ) (s : State) : Option State := do
  let p ← kva2pageLocal ptr s
  slubAssert ((s.slab p).magic = SLUB_SLAB_MAGIC)
  slubCacheDoFree (s.slab p).cache p ptr s

/-- `memset(cache, 0, …)`: a custom cache before its first use. -/
def zeroCache : Cache := ⟨0, 0, 0, 0, 0, 0, 0, false, false, [], []⟩

/-- `slub_init` on the page layer `area`: the default caches are set up, no custom cache is used.
Header and slot bytes are whatever the pages contain. -/
def slubInit (area : FreeArea) (slab : ℕ → Slab) (mem : Mem) : State where
  area := areaInit area
  cache := fun c =>
    match c with
    | .default i => (slubCacheSetup (slubDefaultSizes i) SLUB_MIN_ALIGN true).getD zeroCache
    | .custom _ => zeroCache
  customUsed := fun _ => false
  slab := slab
  mem := mem

/-- `slub_init_memmap`. -/
def slubInitMemmap (base n : ℕ) (s : State) : Option State :=
  (slubPageInitMemmap base n s.area).map fun area => { s with area := area }

end Ucore.Slub
