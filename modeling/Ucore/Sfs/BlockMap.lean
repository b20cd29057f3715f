import Ucore.Sfs.Blocks

/-!
# The block map of an inode

`blockAt fs din i` is the block of the device that holds block `i` of the file, through the direct
entries and the indirect block.  `MapOk` says that the blocks of one inode are in use and distinct.

`sfs_bmap_get_nolock` does nothing for a mapped block (`sfsBmapGet_mapped`).  Otherwise a free block
is mapped (`Maps`), together with a new indirect block where there was none; or there is no free
block, and the freemap and the map are as they were (`Fails`): `sfsBmapGet_new`.
-/

namespace Ucore.Sfs

open Memory

variable {fs fs' : Fs} {sin sin' : Inode} {b c i k ent : ℕ}

/-! ### The map -/

/-- The number of blocks that an inode can map. -/
def maxBlocks : ℕ := SFS_NDIRECT + SFS_BLK_NENTRY

/-- Entry `j` of the indirect block `ent`, 0 when there is no indirect block. -/
def entryAt (fs : Fs) (ent j : ℕ) : ℕ := if ent = 0 then 0 else read32 (fs.disk ent) (j * 4)

/-- The block of the device that holds block `i` of the file. -/
def blockAt (fs : Fs) (din : DiskInode) (i : ℕ) : ℕ :=
  if i < SFS_NDIRECT then din.direct i else entryAt fs din.indirect (i - SFS_NDIRECT)

/-- The blocks of an inode are in use and distinct. -/
structure MapOk (fs : Fs) (din : DiskInode) : Prop where
  inUse : ∀ i < maxBlocks, blockAt fs din i ≠ 0 → InUse fs (blockAt fs din i)
  inj : ∀ i < maxBlocks, ∀ j < maxBlocks, blockAt fs din i = blockAt fs din j →
    blockAt fs din i ≠ 0 → i = j
  indirect : din.indirect ≠ 0 → InUse fs din.indirect ∧
    ∀ i < maxBlocks, blockAt fs din i ≠ din.indirect

theorem entryAt_congr (h : ent ≠ 0 → fs'.disk ent = fs.disk ent) :
    entryAt fs' ent k = entryAt fs ent k := by
  rw [entryAt, entryAt]
  by_cases h0 : ent = 0
  · rw [if_pos h0, if_pos h0]
  · rw [if_neg h0, if_neg h0, h h0]

/-- The map depends on the indirect block only. -/
theorem blockAt_congr {din : DiskInode}
    (h : din.indirect ≠ 0 → fs'.disk din.indirect = fs.disk din.indirect) :
    blockAt fs' din i = blockAt fs din i := by
  rw [blockAt, blockAt, entryAt_congr h]

/-- Block `b` has been mapped at `i`, where nothing was, perhaps with a new indirect block. -/
structure Maps (fs : Fs) (sin : Inode) (fs' : Fs) (sin' : Inode) (i b : ℕ) : Prop where
  isFree : IsFree fs b
  ok : FsOk fs'
  blocks : fs'.blocks = fs.blocks
  indirect : sin'.din.indirect = sin.din.indirect ∨ sin.din.indirect = 0 ∧ SFS_NDIRECT ≤ i ∧
    IsFree fs sin'.din.indirect ∧ sin'.din.indirect ≠ b
  free : ∀ c, fs'.free c = true ↔ fs.free c = true ∧ c ≠ b ∧ c ≠ sin'.din.indirect
  disk : ∀ c, c ≠ b → c ≠ sin'.din.indirect → fs'.disk c = fs.disk c
  zero : ∀ x < SFS_BLKSIZE, fs'.disk b x = 0
  map : ∀ k < maxBlocks,
    blockAt fs' sin'.din k = if k = i then b else blockAt fs sin.din k
  count : fs'.freemap.count + 1 + (if sin'.din.indirect = sin.din.indirect then 0 else 1) =
    fs.freemap.count
  ino : sin'.ino = sin.ino
  size : sin'.din.size = sin.din.size
  type : sin'.din.type = sin.din.type
  din : sin'.din.blocks = sin.din.blocks
  flags : Flagged fs fs'

/-- Nothing has been mapped: only free blocks may have been overwritten. -/
structure Fails (fs fs' : Fs) : Prop where
  ok : FsOk fs'
  blocks : fs'.blocks = fs.blocks
  free : fs'.free = fs.free
  unused : fs'.unusedBlocks = fs.unusedBlocks
  disk : ∀ c, fs.free c = false → fs'.disk c = fs.disk c
  flags : Flagged fs fs'

theorem Fails.refl (hok : FsOk fs) : Fails fs fs :=
  ⟨hok, rfl, rfl, rfl, fun _ _ => rfl, Flagged.refl fs⟩

/-- The second half of `sfs_bmap_get_sub_nolock`. -/
theorem bmapNewEntry_spec (ent₀ : ℕ) (hok : FsOk fs) (hent : InUse fs ent)
    (hk : k < SFS_BLK_NENTRY) :
    (∃ fs', bmapNewEntry fs ent₀ ent k = .ok (.error (-E_NO_MEM), fs') ∧ fs.freemap.count = 0 ∧
        if ent ≠ ent₀ then Frees fs fs' ent else fs' = fs) ∨
      ∃ b fs₁, Allocs fs fs₁ b ∧ bmapNewEntry fs ent₀ ent k =
        .ok (.ok (ent, b), fs₁.setDisk ent (memcpy (fs₁.disk ent) (k * 4) (bytes32 b) 4)) := by
  rcases sfsBlockAlloc_spec hok with ⟨heq, hcount⟩ | ⟨b, fs₁, heq, ha⟩
  · left
    by_cases hne : ent ≠ ent₀
    · obtain ⟨fs', hfree, hf⟩ := sfsBlockFree_spec hok hent
      refine ⟨fs', ?_, hcount, by rw [if_pos hne]; exact hf⟩
      rw [bmapNewEntry, heq, ok_bind]
      show ((if ent ≠ ent₀ then sfsBlockFree fs ent else .ok fs) >>= _) = _
      rw [if_pos hne, hfree, ok_bind]
    · refine ⟨fs, ?_, hcount, by rw [if_neg hne]⟩
      rw [bmapNewEntry, heq, ok_bind]
      show ((if ent ≠ ent₀ then sfsBlockFree fs ent else .ok fs) >>= _) = _
      rw [if_neg hne, ok_bind]
  · refine Or.inr ⟨b, fs₁, ha, ?_⟩
    have hk' : k * 4 + 4 ≤ SFS_BLKSIZE := by
      rw [SFS_BLK_NENTRY] at hk
      rw [SFS_BLKSIZE]
      omega
    rw [bmapNewEntry, heq, ok_bind]
    show (sfsWbuf fs₁ (bytes32 b) 4 ent (k * 4) >>= _) = _
    rw [sfsWbuf_spec (ha.inUse_of hent) (by omega) hk', ok_bind]

theorem bmapOut_spec (sin : Inode) (hok : FsOk fs) (h : c ≠ 0 → InUse fs c) :
    bmapOut fs sin c = .ok (.ok c, fs, sin) := by
  rw [bmapOut]
  by_cases hc : c = 0
  · rw [if_neg (not_not.mpr hc), ok_bind]
  · rw [if_pos hc, assertInuse_spec hok (h hc), ok_bind]

theorem entry_fits (hk : k < SFS_BLK_NENTRY) : k * 4 < SFS_BLKSIZE ∧ k * 4 + 4 ≤ SFS_BLKSIZE := by
  rw [SFS_BLK_NENTRY] at hk
  rw [SFS_BLKSIZE]
  omega

theorem index_fits (hi : i < maxBlocks) (hd : ¬ i < SFS_NDIRECT) :
    i - SFS_NDIRECT < SFS_BLK_NENTRY := by
  rw [maxBlocks] at hi
  omega

/-- `sfs_bmap_get_nolock` of a mapped block, or without `create`: nothing changes. -/
theorem sfsBmapGet_mapped {create : Bool} (hok : FsOk fs) (hmap : MapOk fs sin.din)
    (hi : i < maxBlocks) (h : blockAt fs sin.din i ≠ 0 ∨ create = false) :
    sfsBmapGet fs sin i create = .ok (.ok (blockAt fs sin.din i), fs, sin) := by
  have hout := bmapOut_spec sin hok (hmap.inUse i hi)
  rw [sfsBmapGet]
  by_cases hd : i < SFS_NDIRECT
  · have hat : blockAt fs sin.din i = sin.din.direct i := if_pos hd
    rw [hat] at h hout ⊢
    rw [if_pos hd, if_neg fun hc => ?_]
    · exact hout
    · rcases h with h | h
      · exact h hc.1
      · exact Bool.false_ne_true (h.symm.trans hc.2)
  · have hj := index_fits hi hd
    have hat : blockAt fs sin.din i = entryAt fs sin.din.indirect (i - SFS_NDIRECT) := if_neg hd
    rw [hat] at h hout ⊢
    rw [if_neg hd, if_pos hj]
    by_cases hent : sin.din.indirect = 0
    · have hzero : entryAt fs sin.din.indirect (i - SFS_NDIRECT) = 0 := if_pos hent
      rw [hzero] at h hout ⊢
      have hcreate : create = false := h.resolve_left fun hne => hne rfl
      have hsub : sfsBmapGetSub fs sin.din.indirect (i - SFS_NDIRECT) create =
          .ok (.ok (sin.din.indirect, 0), fs) := by
        rw [sfsBmapGetSub, ensure_pos hj, ok_bind, if_neg (not_not.mpr hent), if_pos hcreate]
      rw [hsub, ok_bind]
      show (if sin.din.indirect ≠ sin.din.indirect then _ else bmapOut fs sin 0) = _
      rw [if_neg (not_not.mpr rfl), hout]
    · obtain ⟨h₁, h₂⟩ := entry_fits hj
      have hread : read32 (fun o => fs.disk sin.din.indirect ((i - SFS_NDIRECT) * 4 + o)) 0 =
          entryAt fs sin.din.indirect (i - SFS_NDIRECT) := by
        rw [read32_shift, entryAt, if_neg hent]
      have hsub : sfsBmapGetSub fs sin.din.indirect (i - SFS_NDIRECT) create =
          .ok (.ok (sin.din.indirect, entryAt fs sin.din.indirect (i - SFS_NDIRECT)), fs) := by
        rw [sfsBmapGetSub, ensure_pos hj, ok_bind, if_pos hent,
          sfsRbuf_spec (hmap.indirect hent).1 h₁ h₂, ok_bind]
        simp only [hread]
        rw [if_pos h]
      rw [hsub, ok_bind]
      show (if sin.din.indirect ≠ sin.din.indirect then _ else bmapOut fs sin _) = _
      rw [if_neg (not_not.mpr rfl), hout]

/-- The blocks needed to map block `i`, which is not mapped. -/
def cost (din : DiskInode) (i : ℕ) : ℕ := if SFS_NDIRECT ≤ i ∧ din.indirect = 0 then 2 else 1

/-- A block that is free is not the indirect block. -/
theorem MapOk.ne_indirect {din : DiskInode} (hmap : MapOk fs din) (hb : IsFree fs b) :
    b ≠ din.indirect := by
  intro he
  have hne : din.indirect ≠ 0 := he ▸ hb.1
  exact (hmap.indirect hne).1.ne hb he.symm

theorem not_free_zero (hok : FsOk fs) (hlt : 0 < fs.blocks) : fs.free 0 = false := by
  refine Bool.eq_false_of_not_eq_true fun hfree => ?_
  exact (hok.valid 0 (hlt.trans_le hok.covers) hfree).1 rfl

theorem free_ne_indirect {din : DiskInode} (hok : FsOk fs) (hmap : MapOk fs din)
    (hlt : 0 < fs.blocks) (hc : fs.free c = true) : c ≠ din.indirect := by
  rintro rfl
  by_cases h0 : din.indirect = 0
  · rw [h0, not_free_zero hok hlt] at hc
    exact absurd hc (by decide)
  · rw [(hmap.indirect h0).1.2.2] at hc
    exact absurd hc (by decide)

/-- A direct entry is filled. -/
theorem maps_direct {fs₁ : Fs} (hok : FsOk fs) (hmap : MapOk fs sin.din) (hd : i < SFS_NDIRECT)
    (ha : Allocs fs fs₁ b) :
    Maps fs sin fs₁ ⟨{ sin.din with direct := Function.update sin.din.direct i b }, sin.ino, true⟩
      i b := by
  have hlt : 0 < fs.blocks := by
    have := ha.isFree.2.1
    omega
  refine ⟨ha.isFree, ha.ok, ha.blocks, Or.inl rfl, fun c => ?_, fun c hc _ => ?_, ha.zero,
    fun k hk => ?_, ?_, rfl, rfl, rfl, rfl, ha.flags⟩
  · rw [ha.free]
    by_cases hcb : c = b
    · rw [hcb, Function.update_self]
      simp
    · rw [Function.update_of_ne hcb]
      exact ⟨fun hc => have hne : c ≠ sin.din.indirect := free_ne_indirect hok hmap hlt hc
        ⟨hc, hcb, hne⟩, fun hc => hc.1⟩
  · rw [ha.disk, Function.update_of_ne hc]
  · by_cases hkd : k < SFS_NDIRECT
    · rw [blockAt, if_pos hkd, blockAt, if_pos hkd]
      by_cases hki : k = i
      · rw [if_pos hki, hki]
        exact Function.update_self _ _ _
      · rw [if_neg hki]
        exact Function.update_of_ne hki _ _
    · have hki : k ≠ i := by omega
      rw [if_neg hki]
      refine (if_neg hkd).trans ((entryAt_congr fun hent => ?_).trans (if_neg hkd).symm)
      rw [ha.disk, Function.update_of_ne (hmap.ne_indirect ha.isFree).symm]
  · rw [if_pos rfl]
    exact ha.count

/-- An entry of the indirect block is filled; `fs₁` is the state after the allocation of `b`, in which
the other entries of the indirect block `ent` are those of the old map. -/
theorem maps_entry (sin : Inode) (dirty : Bool) {fs₁ : Fs} (hok₁ : FsOk fs₁) (hb : IsFree fs b)
    (hblocks : fs₁.blocks = fs.blocks) (hent : ent ≠ 0) (hne : ent ≠ b)
    (hind : ent = sin.din.indirect ∨ sin.din.indirect = 0 ∧ SFS_NDIRECT ≤ i ∧ IsFree fs ent)
    (hd : ¬ i < SFS_NDIRECT) (hsmall : b < 2 ^ 32)
    (hfree : ∀ c, fs₁.free c = true ↔ fs.free c = true ∧ c ≠ b ∧ c ≠ ent)
    (hdisk : ∀ c, c ≠ b → c ≠ ent → fs₁.disk c = fs.disk c)
    (hzero : ∀ x < SFS_BLKSIZE, fs₁.disk b x = 0)
    (hentry : ∀ j < SFS_BLK_NENTRY, read32 (fs₁.disk ent) (j * 4) =
      entryAt fs sin.din.indirect j)
    (hcount : fs₁.freemap.count + 1 + (if ent = sin.din.indirect then 0 else 1) =
      fs.freemap.count) (hflags : Flagged fs fs₁) :
    Maps fs sin (fs₁.setDisk ent (memcpy (fs₁.disk ent) ((i - SFS_NDIRECT) * 4) (bytes32 b) 4))
      ⟨{ sin.din with indirect := ent }, sin.ino, dirty⟩ i b := by
  refine ⟨hb, hok₁.setDisk _ _, hblocks, ?_, hfree, fun c hcb hce => ?_, fun x hx => ?_,
    fun k hk => ?_, hcount, rfl, rfl, rfl, rfl, hflags.setDisk hent _⟩
  · rcases hind with h | ⟨h₀, h₁, h₂⟩
    · exact Or.inl h
    · exact Or.inr ⟨h₀, h₁, h₂, hne⟩
  · exact (Function.update_of_ne hce _ _).trans (hdisk c hcb hce)
  · exact (congrFun (Function.update_of_ne hne.symm _ _) x).trans (hzero x hx)
  · by_cases hkd : k < SFS_NDIRECT
    · have hki : k ≠ i := by omega
      rw [if_neg hki, blockAt, if_pos hkd, blockAt, if_pos hkd]
    · have hj := index_fits hk hkd
      have hself : (fs₁.setDisk ent
          (memcpy (fs₁.disk ent) ((i - SFS_NDIRECT) * 4) (bytes32 b) 4)).disk ent =
          memcpy (fs₁.disk ent) ((i - SFS_NDIRECT) * 4) (bytes32 b) 4 := Function.update_self _ _ _
      rw [blockAt, if_neg hkd, entryAt]
      show (if ent = 0 then 0 else _) = _
      rw [if_neg hent]
      show read32 ((fs₁.setDisk ent _).disk ent) _ = _
      rw [hself]
      by_cases hki : k = i
      · rw [if_pos hki, hki, read32_memcpy_self hsmall]
      · rw [if_neg hki, read32_memcpy_of_apart (by omega), hentry _ hj, blockAt, if_neg hkd]

/-- Without an indirect block the first thing is to allocate one. -/
theorem sfsBmapGetSub_zero {ent index : ℕ} (hent : ent = 0) (hindex : index < SFS_BLK_NENTRY) :
    sfsBmapGetSub fs ent index true =
      (sfsBlockAlloc fs >>= fun r => match r with
        | (.error ret, fs) => .ok (.error ret, fs)
        | (.ok ent', fs) => bmapNewEntry fs ent ent' index) := by
  rw [sfsBmapGetSub, ensure_pos hindex, ok_bind, if_neg (not_not.mpr hent)]
  exact if_neg (by decide)

/-- **`sfs_bmap_get_nolock`** with `create` of a block that is not mapped. -/
theorem sfsBmapGet_new (hok : FsOk fs) (hmap : MapOk fs sin.din) (hi : i < maxBlocks)
    (h0 : blockAt fs sin.din i = 0) :
    (∃ fs', sfsBmapGet fs sin i true = .ok (.error (-E_NO_MEM), fs', sin) ∧ Fails fs fs' ∧
        fs.freemap.count < cost sin.din i) ∨
      ∃ b fs' sin', sfsBmapGet fs sin i true = .ok (.ok b, fs', sin') ∧
        Maps fs sin fs' sin' i b := by
  rw [sfsBmapGet]
  by_cases hd : i < SFS_NDIRECT
  · have hat : sin.din.direct i = 0 := (if_pos hd).symm.trans h0
    have hcost : cost sin.din i = 1 := if_neg fun hc => absurd hd (Nat.not_lt.mpr hc.1)
    rw [if_pos hd, if_pos ⟨hat, rfl⟩]
    rcases sfsBlockAlloc_spec hok with ⟨heq, hcount⟩ | ⟨b, fs₁, heq, ha⟩
    · left
      refine ⟨fs, by rw [heq, ok_bind], Fails.refl hok, ?_⟩
      rw [hcost, hcount]
      exact Nat.one_pos
    · right
      refine ⟨b, fs₁, _, ?_, maps_direct hok hmap hd ha⟩
      rw [heq, ok_bind]
      exact bmapOut_spec _ ha.ok fun _ => ha.inUse
  · have hj := index_fits hi hd
    have hat : entryAt fs sin.din.indirect (i - SFS_NDIRECT) = 0 := (if_neg hd).symm.trans h0
    have hge : SFS_NDIRECT ≤ i := Nat.not_lt.mp hd
    rw [if_neg hd, if_pos hj]
    by_cases hent : sin.din.indirect = 0
    · -- a new indirect block first
      have hcost : cost sin.din i = 2 := if_pos ⟨hge, hent⟩
      rw [sfsBmapGetSub_zero hent hj]
      rcases sfsBlockAlloc_spec hok with ⟨heq, hcount⟩ | ⟨ent', fs₁, heq, ha⟩
      · left
        refine ⟨fs, by rw [heq, ok_bind, ok_bind], Fails.refl hok, ?_⟩
        rw [hcost, hcount]
        exact Nat.two_pos
      · have hlt : 0 < fs.blocks := by
          have := ha.isFree.2.1
          omega
        rw [heq, ok_bind]
        simp only
        have hne' : ent' ≠ sin.din.indirect := by
          rw [hent]
          exact ha.isFree.1
        rcases bmapNewEntry_spec sin.din.indirect ha.ok ha.inUse hj with
          ⟨fs₂, heq₂, hcount, hfree⟩ | ⟨b, fs₂, ha₂, heq₂⟩
        · left
          rw [if_pos hne'] at hfree
          refine ⟨fs₂, by rw [heq₂, ok_bind], ⟨hfree.ok, hfree.blocks.trans ha.blocks, ?_, ?_,
            fun c hc => ?_, ha.flags.trans hfree.flags⟩, ?_⟩
          · rw [hfree.free, ha.free, Function.update_idem, ← ha.isFree.2.2, Function.update_eq_self]
          · rw [hfree.ok.unused, hok.unused, hfree.count, ha.count]
          · have hce : c ≠ ent' := by
              rintro rfl
              exact absurd (hc.symm.trans ha.isFree.2.2) (by decide)
            rw [hfree.disk, ha.disk, Function.update_of_ne hce]
          · rw [hcost, ← ha.count, hcount]
            decide
        · right
          have hb : IsFree fs b := by
            obtain ⟨hb₀, hb₁, hb₂⟩ := ha₂.isFree
            rw [ha.free] at hb₂
            have hbe : b ≠ ent' := by
              rintro rfl
              rw [Function.update_self] at hb₂
              exact absurd hb₂ (by decide)
            rw [Function.update_of_ne hbe] at hb₂
            exact ⟨hb₀, ha.blocks ▸ hb₁, hb₂⟩
          have hne : ent' ≠ b := ha.inUse.ne ha₂.isFree
          have hsmall : b < 2 ^ 32 := hb.2.1.trans hok.small
          have hdisk₂ : ∀ c, c ≠ b → fs₂.disk c = fs₁.disk c := fun c hc => by
            rw [ha₂.disk, Function.update_of_ne hc]
          have hmaps := maps_entry (i := i) sin true ha₂.ok hb (ha₂.blocks.trans ha.blocks)
            ha.isFree.1 hne (Or.inr ⟨hent, hge, ha.isFree⟩) hd hsmall
            (fun c => ?_) (fun c hcb hce => ?_) ha₂.zero (fun j hj' => ?_) ?_
            (ha.flags.trans ha₂.flags)
          · refine ⟨b, _, _, ?_, hmaps⟩
            rw [heq₂, ok_bind]
            show (if ent' ≠ sin.din.indirect then _ else _) = _
            rw [if_pos hne', ensure_pos hent, ok_bind]
            exact bmapOut_spec _ hmaps.ok fun _ => ha₂.inUse
          · rw [ha₂.free, ha.free]
            by_cases hcb : c = b
            · rw [hcb, Function.update_self]
              simp
            · rw [Function.update_of_ne hcb]
              by_cases hce : c = ent'
              · rw [hce, Function.update_self]
                simp
              · rw [Function.update_of_ne hce]
                exact ⟨fun hc => ⟨hc, hcb, hce⟩, fun hc => hc.1⟩
          · rw [hdisk₂ c hcb, ha.disk, Function.update_of_ne hce]
          · rw [hdisk₂ ent' hne, ha.disk, Function.update_self, entryAt, if_pos hent]
            obtain ⟨-, hfit⟩ := entry_fits hj'
            exact read32_memset_zero (Nat.zero_le _) (by omega)
          · rw [if_neg hne', ← ha.count, ← ha₂.count]
    · -- the indirect block is there
      have hcost : cost sin.din i = 1 := if_neg fun hc => hent hc.2
      have hin := (hmap.indirect hent).1
      obtain ⟨h₁, h₂⟩ := entry_fits hj
      have hread : read32 (fun o => fs.disk sin.din.indirect ((i - SFS_NDIRECT) * 4 + o)) 0 = 0 := by
        rw [read32_shift, ← hat, entryAt, if_neg hent]
      have hsub : sfsBmapGetSub fs sin.din.indirect (i - SFS_NDIRECT) true =
          bmapNewEntry fs sin.din.indirect sin.din.indirect (i - SFS_NDIRECT) := by
        rw [sfsBmapGetSub, ensure_pos hj, ok_bind, if_pos hent, sfsRbuf_spec hin h₁ h₂, ok_bind]
        simp only [hread]
        rw [if_neg (by decide)]
      rw [hsub]
      rcases bmapNewEntry_spec sin.din.indirect hok hin hj with
        ⟨fs₂, heq₂, hcount, hsame⟩ | ⟨b, fs₂, ha₂, heq₂⟩
      · left
        rw [if_neg (not_not.mpr rfl)] at hsame
        refine ⟨fs₂, by rw [heq₂, ok_bind], by rw [hsame]; exact Fails.refl hok, ?_⟩
        rw [hcost, hcount]
        exact Nat.one_pos
      · right
        have hlt : 0 < fs.blocks := by
          have := ha₂.isFree.2.1
          omega
        have hb := ha₂.isFree
        have hne : sin.din.indirect ≠ b := hin.ne hb
        have hdisk₂ : ∀ c, c ≠ b → fs₂.disk c = fs.disk c := fun c hc => by
          rw [ha₂.disk, Function.update_of_ne hc]
        have hmaps := maps_entry (i := i) sin sin.dirty ha₂.ok hb ha₂.blocks hent hne
          (Or.inl rfl) hd (hb.2.1.trans hok.small) (fun c => ?_)
          (fun c hcb hce => hdisk₂ c hcb) ha₂.zero (fun j hj' => ?_) ?_ ha₂.flags
        · refine ⟨b, _, _, ?_, hmaps⟩
          rw [heq₂, ok_bind]
          show (if sin.din.indirect ≠ sin.din.indirect then _ else bmapOut _ sin b) = _
          rw [if_neg (not_not.mpr rfl)]
          exact bmapOut_spec _ hmaps.ok fun _ => ha₂.inUse
        · rw [ha₂.free]
          by_cases hcb : c = b
          · rw [hcb, Function.update_self]
            simp
          · rw [Function.update_of_ne hcb]
            exact ⟨fun hc => ⟨hc, hcb, free_ne_indirect hok hmap hlt hc⟩, fun hc => hc.1⟩
        · rw [hdisk₂ _ hne, entryAt, if_neg hent]
        · rw [if_pos rfl]
          exact ha₂.count

end Ucore.Sfs
