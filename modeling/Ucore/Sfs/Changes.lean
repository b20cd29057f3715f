import Ucore.Sfs.BlockMap

/-!
# What an operation on one file may change

`Owns fs din c` says that block `c` belongs to the map of the inode.  `Private` is the frame condition
of every operation on one inode: a block in use that the inode does not own stays in use, stays
foreign and keeps its contents, and the blocks in use afterwards are these and the blocks that the
inode owns then.  It is transitive, so it is proved for a write of a data block, for
`sfs_bmap_load_nolock` (`sfsBmapLoad_spec`) and for `sfs_bmap_truncate_nolock`
(`sfsBmapTruncate_spec`) and carried along loops.
-/

namespace Ucore.Sfs

open Memory

variable {fs fs' fs'' : Fs} {sin sin' : Inode} {din din' din'' : DiskInode} {b c i k : ℕ}

/-- Block `c` is mapped by the inode, or is its indirect block. -/
def Owns (fs : Fs) (din : DiskInode) (c : ℕ) : Prop :=
  c ≠ 0 ∧ (c = din.indirect ∨ ∃ k < maxBlocks, blockAt fs din k = c)

theorem owns_blockAt (hk : k < maxBlocks) (h : blockAt fs din k ≠ 0) :
    Owns fs din (blockAt fs din k) := ⟨h, Or.inr ⟨k, hk, rfl⟩⟩

theorem MapOk.inUse_of_owns (hmap : MapOk fs din) (h : Owns fs din c) : InUse fs c := by
  obtain ⟨hc, rfl | ⟨k, hk, rfl⟩⟩ := h
  · exact (hmap.indirect hc).1
  · exact hmap.inUse k hk hc

/-- Byte `y` of the file.  A block that is not mapped counts as zeros. -/
def byteAt (fs : Fs) (din : DiskInode) (y : ℕ) : UInt8 :=
  if blockAt fs din (y / SFS_BLKSIZE) = 0 then 0
  else fs.disk (blockAt fs din (y / SFS_BLKSIZE)) (y % SFS_BLKSIZE)

/-- Only the blocks of one inode have changed. -/
structure Private (fs : Fs) (din : DiskInode) (fs' : Fs) (din' : DiskInode) : Prop where
  ok : FsOk fs'
  map : MapOk fs' din'
  blocks : fs'.blocks = fs.blocks
  keeps : ∀ c, InUse fs c → ¬ Owns fs din c →
    InUse fs' c ∧ ¬ Owns fs' din' c ∧ fs'.disk c = fs.disk c
  inUse : ∀ c, InUse fs' c → InUse fs c ∧ ¬ Owns fs din c ∨ Owns fs' din' c
  flags : Flagged fs fs'

theorem Private.refl (hok : FsOk fs) (hmap : MapOk fs din) : Private fs din fs din :=
  ⟨hok, hmap, rfl, fun _ hc hn => ⟨hc, hn, rfl⟩, fun c hc => by
    by_cases h : Owns fs din c
    · exact Or.inr h
    · exact Or.inl ⟨hc, h⟩, Flagged.refl fs⟩

theorem Private.trans (h₁ : Private fs din fs' din') (h₂ : Private fs' din' fs'' din'') :
    Private fs din fs'' din'' := by
  refine ⟨h₂.ok, h₂.map, h₂.blocks.trans h₁.blocks, fun c hc hn => ?_, fun c hc => ?_,
    h₁.flags.trans h₂.flags⟩
  · obtain ⟨hc', hn', hd'⟩ := h₁.keeps c hc hn
    obtain ⟨hc'', hn'', hd''⟩ := h₂.keeps c hc' hn'
    exact ⟨hc'', hn'', hd''.trans hd'⟩
  · rcases h₂.inUse c hc with ⟨hc', hn'⟩ | h
    · exact Or.inl ((h₁.inUse c hc').resolve_right hn')
    · exact Or.inr h

/-- The size and the number of blocks are not part of the map. -/
theorem Private.congr (h : Private fs din fs' din') (hd : din''.direct = din'.direct)
    (hi : din''.indirect = din'.indirect) : Private fs din fs' din'' := by
  have hat : ∀ k, blockAt fs' din'' k = blockAt fs' din' k := fun k => by
    rw [blockAt, blockAt, hd, hi]
  have howns : ∀ c, Owns fs' din'' c ↔ Owns fs' din' c := fun c => by
    simp only [Owns, hat, hi]
  refine ⟨h.ok, ⟨fun k hk hne => ?_, fun k hk l hl heq hne => ?_, fun hne => ?_⟩, h.blocks,
    fun c hc hn => ?_, fun c hc => ?_, h.flags⟩
  · rw [hat] at hne ⊢
    exact h.map.inUse k hk hne
  · rw [hat, hat] at heq
    rw [hat] at hne
    exact h.map.inj k hk l hl heq hne
  · rw [hi] at hne ⊢
    obtain ⟨hin, hno⟩ := h.map.indirect hne
    exact ⟨hin, fun k hk => hat k ▸ hno k hk⟩
  · obtain ⟨hc', hn', hd'⟩ := h.keeps c hc hn
    exact ⟨hc', fun ho => hn' ((howns c).mp ho), hd'⟩
  · exact (h.inUse c hc).imp_right (howns c).mpr

/-- An operation that fails has changed free blocks only. -/
theorem Fails.private (h : Fails fs fs') (hmap : MapOk fs din) :
    Private fs din fs' din ∧ ∀ k, blockAt fs' din k = blockAt fs din k := by
  have hin : ∀ c, InUse fs' c ↔ InUse fs c := fun c => by
    rw [InUse, InUse, h.free, h.blocks]
  have hat : ∀ k, blockAt fs' din k = blockAt fs din k := fun k =>
    blockAt_congr fun hne => h.disk _ (hmap.indirect hne).1.2.2
  have howns : ∀ c, Owns fs' din c ↔ Owns fs din c := fun c => by simp only [Owns, hat]
  refine ⟨⟨h.ok, ⟨fun k hk hne => ?_, fun k hk l hl heq hne => ?_, fun hne => ?_⟩, h.blocks,
    fun c hc hn => ?_, fun c hc => ?_, h.flags⟩, hat⟩
  · rw [hat] at hne ⊢
    exact (hin _).mpr (hmap.inUse k hk hne)
  · rw [hat, hat] at heq
    rw [hat] at hne
    exact hmap.inj k hk l hl heq hne
  · obtain ⟨hi, hno⟩ := hmap.indirect hne
    exact ⟨(hin _).mpr hi, fun k hk => (hat k).symm ▸ hno k hk⟩
  · exact ⟨(hin c).mpr hc, fun ho => hn ((howns c).mp ho), h.disk c hc.2.2⟩
  · by_cases ho : Owns fs din c
    · exact Or.inr ((howns c).mpr ho)
    · exact Or.inl ⟨(hin c).mp hc, ho⟩

/-! ### A write of a data block -/

theorem blockAt_setDisk {m : Mem} (hmap : MapOk fs din) (hk : k < maxBlocks) :
    blockAt (fs.setDisk (blockAt fs din k) m) din i = blockAt fs din i :=
  blockAt_congr fun hne => Function.update_of_ne ((hmap.indirect hne).2 k hk).symm _ _

/-- A block of the file may be overwritten. -/
theorem private_setDisk (hok : FsOk fs) (hmap : MapOk fs din) (hk : k < maxBlocks)
    (hne : blockAt fs din k ≠ 0) (m : Mem) :
    Private fs din (fs.setDisk (blockAt fs din k) m) din := by
  have hat : ∀ i, blockAt (fs.setDisk (blockAt fs din k) m) din i = blockAt fs din i :=
    fun i => blockAt_setDisk hmap hk
  have howns : ∀ c, Owns (fs.setDisk (blockAt fs din k) m) din c ↔ Owns fs din c := fun c => by
    simp only [Owns, hat]
  refine ⟨hok.setDisk _ _, ⟨fun i hi h0 => ?_, fun i hi j hj heq h0 => ?_, fun h0 => ?_⟩, rfl,
    fun c hc hn => ?_, fun c hc => ?_, (Flagged.refl fs).setDisk hne m⟩
  · rw [hat] at h0 ⊢
    exact hmap.inUse i hi h0
  · rw [hat, hat] at heq
    rw [hat] at h0
    exact hmap.inj i hi j hj heq h0
  · obtain ⟨hi, hno⟩ := hmap.indirect h0
    exact ⟨hi, fun i hi => (hat i).symm ▸ hno i hi⟩
  · refine ⟨hc, fun ho => hn ((howns c).mp ho), ?_⟩
    have hcb : c ≠ blockAt fs din k := by
      rintro rfl
      exact hn (owns_blockAt hk hne)
    exact Function.update_of_ne hcb _ _
  · by_cases ho : Owns fs din c
    · exact Or.inr ((howns c).mpr ho)
    · exact Or.inl ⟨hc, ho⟩

/-! ### A new block -/

theorem Maps.inUse (hm : Maps fs sin fs' sin' i b) : InUse fs' b := by
  refine ⟨hm.isFree.1, hm.blocks ▸ hm.isFree.2.1, Bool.eq_false_of_not_eq_true fun h => ?_⟩
  exact ((hm.free b).mp h).2.1 rfl

theorem Maps.inUse_of (hm : Maps fs sin fs' sin' i b) (hc : InUse fs c) : InUse fs' c := by
  refine ⟨hc.1, hm.blocks ▸ hc.2.1, Bool.eq_false_of_not_eq_true fun h => ?_⟩
  exact Bool.false_ne_true (hc.2.2.symm.trans ((hm.free c).mp h).1)

theorem Maps.mapOk (hm : Maps fs sin fs' sin' i b) (hmap : MapOk fs sin.din) :
    MapOk fs' sin'.din := by
  have hold : ∀ k < maxBlocks, blockAt fs sin.din k ≠ b := fun k hk h => by
    have hne : blockAt fs sin.din k ≠ 0 := by
      rw [h]
      exact hm.isFree.1
    exact (hmap.inUse k hk hne).ne hm.isFree h
  refine ⟨fun k hk hne => ?_, fun k hk l hl heq hne => ?_, fun hne => ?_⟩
  · rw [hm.map k hk] at hne ⊢
    by_cases hki : k = i
    · rw [if_pos hki]
      exact hm.inUse
    · rw [if_neg hki] at hne ⊢
      exact hm.inUse_of (hmap.inUse k hk hne)
  · rw [hm.map k hk, hm.map l hl] at heq
    rw [hm.map k hk] at hne
    by_cases hki : k = i
    · by_cases hli : l = i
      · exact hki.trans hli.symm
      · rw [if_pos hki, if_neg hli] at heq
        exact absurd heq.symm (hold l hl)
    · rw [if_neg hki] at heq hne
      by_cases hli : l = i
      · rw [if_pos hli] at heq
        exact absurd heq (hold k hk)
      · rw [if_neg hli] at heq
        exact hmap.inj k hk l hl heq hne
  · rcases hm.indirect with hsame | ⟨-, -, hfree, hneb⟩
    · rw [hsame] at hne ⊢
      obtain ⟨hin, hno⟩ := hmap.indirect hne
      refine ⟨hm.inUse_of hin, fun k hk => ?_⟩
      rw [hm.map k hk]
      by_cases hki : k = i
      · rw [if_pos hki]
        exact (hin.ne hm.isFree).symm
      · rw [if_neg hki]
        exact hno k hk
    · refine ⟨⟨hne, hm.blocks ▸ hfree.2.1, Bool.eq_false_of_not_eq_true fun h =>
        ((hm.free _).mp h).2.2 rfl⟩, fun k hk => ?_⟩
      rw [hm.map k hk]
      by_cases hki : k = i
      · rw [if_pos hki]
        exact hneb.symm
      · rw [if_neg hki]
        intro h
        have hne' : blockAt fs sin.din k ≠ 0 := by
          rw [h]
          exact hne
        exact (hmap.inUse k hk hne').ne hfree h

theorem Maps.private (hm : Maps fs sin fs' sin' i b) (hmap : MapOk fs sin.din)
    (hi : i < maxBlocks) (h0 : blockAt fs sin.din i = 0) :
    Private fs sin.din fs' sin'.din := by
  have hself : blockAt fs' sin'.din i = b := by rw [hm.map i hi, if_pos rfl]
  refine ⟨hm.ok, hm.mapOk hmap, hm.blocks, fun c hc hn => ?_, fun c hc => ?_, hm.flags⟩
  · have hcb : c ≠ b := hc.ne hm.isFree
    have hce : c ≠ sin'.din.indirect := by
      rcases hm.indirect with hsame | ⟨-, -, hfree, -⟩
      · rw [hsame]
        exact fun h => hn ⟨hc.1, Or.inl h⟩
      · exact hc.ne hfree
    refine ⟨hm.inUse_of hc, ?_, hm.disk c hcb hce⟩
    rintro ⟨-, h | ⟨k, hk, h⟩⟩
    · exact hce h
    · rw [hm.map k hk] at h
      by_cases hki : k = i
      · rw [if_pos hki] at h
        exact hcb h.symm
      · rw [if_neg hki] at h
        exact hn ⟨hc.1, Or.inr ⟨k, hk, h⟩⟩
  · by_cases hcb : c = b
    · exact Or.inr ⟨hc.1, Or.inr ⟨i, hi, hself.trans hcb.symm⟩⟩
    by_cases hce : c = sin'.din.indirect
    · exact Or.inr ⟨hc.1, Or.inl hce⟩
    have hfree : fs.free c = false := Bool.eq_false_of_not_eq_true fun h =>
      Bool.false_ne_true (hc.2.2.symm.trans ((hm.free c).mpr ⟨h, hcb, hce⟩))
    by_cases ho : Owns fs sin.din c
    · right
      refine ⟨hc.1, ?_⟩
      rcases ho.2 with h | ⟨k, hk, h⟩
      · rcases hm.indirect with hsame | ⟨hzero, -⟩
        · exact absurd (h.trans hsame.symm) hce
        · exact absurd (h.trans hzero) hc.1
      · refine Or.inr ⟨k, hk, ?_⟩
        have hki : k ≠ i := by
          rintro rfl
          exact hc.1 (h.symm.trans h0)
        rw [hm.map k hk, if_neg hki, h]
    · exact Or.inl ⟨⟨hc.1, hm.blocks ▸ hc.2.1, hfree⟩, ho⟩

theorem Maps.self (hm : Maps fs sin fs' sin' i b) (hi : i < maxBlocks) :
    blockAt fs' sin'.din i = b := by rw [hm.map i hi, if_pos rfl]

/-- A new indirect block is taken exactly where `cost` says so. -/
theorem Maps.cost (hm : Maps fs sin fs' sin' i b) (hi : i < maxBlocks) :
    fs'.freemap.count + cost sin.din i = fs.freemap.count := by
  have hcount := hm.count
  rw [Sfs.cost]
  rcases hm.indirect with hsame | ⟨hzero, hge, hfree, -⟩
  · have hno : ¬ (SFS_NDIRECT ≤ i ∧ sin.din.indirect = 0) := by
      rintro ⟨hge, hzero⟩
      refine hm.isFree.1 (hm.self hi ▸ ?_)
      rw [blockAt, if_neg (Nat.not_lt.mpr hge), entryAt, if_pos (hsame.trans hzero)]
    rw [if_pos hsame] at hcount
    rw [if_neg hno]
    exact hcount
  · have hne : sin'.din.indirect ≠ sin.din.indirect := by
      rw [hzero]
      exact hfree.1
    rw [if_neg hne] at hcount
    rw [if_pos ⟨hge, hzero⟩]
    exact hcount

/-- Block `i` of the file has been looked up for an access, and is block `b` of the device. -/
structure Loads (fs : Fs) (sin : Inode) (fs' : Fs) (sin' : Inode) (i b : ℕ) : Prop where
  priv : Private fs sin.din fs' sin'.din
  self : blockAt fs' sin'.din i = b
  ne : b ≠ 0
  old : ∀ k < maxBlocks, k ≠ i → blockAt fs' sin'.din k = blockAt fs sin.din k
  mapped : blockAt fs sin.din i ≠ 0 → b = blockAt fs sin.din i
  data : ∀ k < maxBlocks, blockAt fs sin.din k ≠ 0 →
    fs'.disk (blockAt fs sin.din k) = fs.disk (blockAt fs sin.din k)
  zero : blockAt fs sin.din i = 0 → ∀ x < SFS_BLKSIZE, fs'.disk b x = 0
  indirect : sin'.din.indirect = 0 ↔ sin.din.indirect = 0 ∧ i < SFS_NDIRECT
  nblocks : sin'.din.blocks = max sin.din.blocks (i + 1)
  count : fs'.freemap.count + (if blockAt fs sin.din i = 0 then cost sin.din i else 0) =
    fs.freemap.count
  ino : sin'.ino = sin.ino
  size : sin'.din.size = sin.din.size
  type : sin'.din.type = sin.din.type

theorem loads_mapped (hok : FsOk fs) (hmap : MapOk fs sin.din) (hne : blockAt fs sin.din i ≠ 0)
    (hn : sin'.din.blocks = max sin.din.blocks (i + 1))
    (hd : sin' = { sin with din := { sin.din with blocks := sin'.din.blocks } }) :
    Loads fs sin fs sin' i (blockAt fs sin.din i) := by
  have hind : sin'.din.indirect = sin.din.indirect := by rw [hd]
  have hdir : sin'.din.direct = sin.din.direct := by rw [hd]
  have hat : ∀ k, blockAt fs sin'.din k = blockAt fs sin.din k := fun k => by
    rw [blockAt, blockAt, hind, hdir]
  refine ⟨(Private.refl hok hmap).congr hdir hind, hat i, hne, fun k _ _ => hat k, fun _ => rfl,
    fun _ _ _ => rfl, fun h => absurd h hne, ?_, hn, by rw [if_neg hne, Nat.add_zero], by rw [hd],
    by rw [hd], by rw [hd]⟩
  rw [hind]
  refine ⟨fun h => ⟨h, ?_⟩, fun h => h.1⟩
  by_contra hge
  exact hne (by rw [blockAt, if_neg hge, entryAt, if_pos h])

theorem Maps.loads (hm : Maps fs sin fs' sin' i b) (hmap : MapOk fs sin.din) (hi : i < maxBlocks)
    (h0 : blockAt fs sin.din i = 0) (hn : sin.din.blocks = i) :
    Loads fs sin fs' { sin' with din := { sin'.din with blocks := sin'.din.blocks + 1 } } i b := by
  refine ⟨(hm.private hmap hi h0).congr rfl rfl, hm.self hi, hm.isFree.1, fun k hk hki => ?_,
    fun h => absurd h0 h, fun k hk hne => ?_, fun _ => hm.zero, ⟨fun h => ?_, fun h => ?_⟩, ?_, ?_,
    hm.ino, hm.size, hm.type⟩
  · exact (hm.map k hk).trans (if_neg hki)
  · have hin := hmap.inUse k hk hne
    refine hm.disk _ (hin.ne hm.isFree) ?_
    rcases hm.indirect with hsame | ⟨-, -, hfree, -⟩
    · rw [hsame]
      by_cases h : sin.din.indirect = 0
      · rw [h]
        exact hne
      · exact (hmap.indirect h).2 k hk
    · exact hin.ne hfree
  · rcases hm.indirect with hsame | ⟨-, -, hfree, -⟩
    · refine ⟨hsame.symm.trans h, ?_⟩
      by_contra hge
      refine hm.isFree.1 (hm.self hi ▸ ?_)
      rw [blockAt, if_neg hge, entryAt, if_pos h]
    · exact absurd h hfree.1
  · rcases hm.indirect with hsame | ⟨-, hge, -, -⟩
    · exact hsame.trans h.1
    · exact absurd h.2 (Nat.not_lt.mpr hge)
  · show sin'.din.blocks + 1 = _
    rw [hm.din, hn]
    omega
  · rw [if_pos h0]
    exact hm.cost hi

/-- A look-up does not change the bytes of the file. -/
theorem Loads.bytes (hl : Loads fs sin fs' sin' i b) {y : ℕ} (hy : y / SFS_BLKSIZE < maxBlocks) :
    byteAt fs' sin'.din y = byteAt fs sin.din y := by
  rw [byteAt, byteAt]
  by_cases hk : y / SFS_BLKSIZE = i
  · rw [hk, hl.self, if_neg hl.ne]
    by_cases h0 : blockAt fs sin.din i = 0
    · rw [if_pos h0]
      exact hl.zero h0 _ (Nat.mod_lt _ (by decide))
    · rw [if_neg h0, hl.mapped h0, hl.data i (hk ▸ hy) h0]
  · rw [hl.old _ hy hk]
    by_cases h0 : blockAt fs sin.din (y / SFS_BLKSIZE) = 0
    · rw [if_pos h0, if_pos h0]
    · rw [if_neg h0, if_neg h0, hl.data _ hy h0]

/-- **`sfs_bmap_load_nolock`** of a block up to the end of the file.  The number of blocks grows by
one for the block at the end. -/
theorem sfsBmapLoad_spec (hok : FsOk fs) (hmap : MapOk fs sin.din) (hi : i < maxBlocks)
    (hle : i ≤ sin.din.blocks) (hfill : i < sin.din.blocks → blockAt fs sin.din i ≠ 0) :
    (∃ fs', sfsBmapLoad fs sin i = .ok (.error (-E_NO_MEM), fs', sin) ∧ Fails fs fs' ∧
        blockAt fs sin.din i = 0 ∧ fs.freemap.count < cost sin.din i) ∨
      ∃ b fs' sin', sfsBmapLoad fs sin i = .ok (.ok b, fs', sin') ∧ Loads fs sin fs' sin' i b ∧
        (i < sin.din.blocks → fs' = fs ∧ sin' = sin) := by
  rw [sfsBmapLoad, ensure_pos hle, ok_bind]
  rcases Nat.lt_or_eq_of_le hle with hlt | heq
  · right
    have hne := hfill hlt
    have hno : decide (i = sin.din.blocks) = false := decide_eq_false (Nat.ne_of_lt hlt)
    refine ⟨_, fs, sin, ?_, loads_mapped hok hmap hne (by omega) rfl, fun _ => ⟨rfl, rfl⟩⟩
    rw [hno]
    show (sfsBmapGet fs sin i false >>= _) = _
    rw [sfsBmapGet_mapped hok hmap hi (Or.inl hne), ok_bind]
    show (assertInuse fs _ >>= _) = _
    rw [assertInuse_spec hok (hmap.inUse i hi hne), ok_bind]
    rfl
  · have hyes : decide (i = sin.din.blocks) = true := decide_eq_true heq
    rw [hyes]
    by_cases h0 : blockAt fs sin.din i = 0
    · rcases sfsBmapGet_new hok hmap hi h0 with ⟨fs', hget, hfail, hcount⟩ | ⟨b, fs', sin', hget, hm⟩
      · refine Or.inl ⟨fs', ?_, hfail, h0, hcount⟩
        show (sfsBmapGet fs sin i true >>= _) = _
        rw [hget, ok_bind]
      · refine Or.inr ⟨b, fs', _, ?_, hm.loads hmap hi h0 heq.symm, fun hlt => absurd heq hlt.ne⟩
        show (sfsBmapGet fs sin i true >>= _) = _
        rw [hget, ok_bind]
        show (assertInuse fs' b >>= _) = _
        rw [assertInuse_spec hm.ok hm.inUse, ok_bind, if_pos rfl]
    · refine Or.inr ⟨_, fs, { sin with din := { sin.din with blocks := sin.din.blocks + 1 } }, ?_,
        loads_mapped hok hmap h0 ?_ rfl, fun hlt => absurd heq hlt.ne⟩
      · show (sfsBmapGet fs sin i true >>= _) = _
        rw [sfsBmapGet_mapped hok hmap hi (Or.inl h0), ok_bind]
        show (assertInuse fs _ >>= _) = _
        rw [assertInuse_spec hok (hmap.inUse i hi h0), ok_bind, if_pos rfl]
      · show sin.din.blocks + 1 = _
        omega

/-! ### Truncation -/

/-- The block at `i` has been unmapped and given back. -/
structure Unmaps (fs : Fs) (sin : Inode) (fs' : Fs) (sin' : Inode) (i : ℕ) : Prop where
  ok : FsOk fs'
  blocks : fs'.blocks = fs.blocks
  free : fs'.free = Function.update fs.free (blockAt fs sin.din i) true
  disk : ∀ c, c ≠ sin.din.indirect → fs'.disk c = fs.disk c
  map : ∀ k < maxBlocks, blockAt fs' sin'.din k = if k = i then 0 else blockAt fs sin.din k
  indirect : sin'.din.indirect = sin.din.indirect
  ino : sin'.ino = sin.ino
  size : sin'.din.size = sin.din.size
  type : sin'.din.type = sin.din.type
  nblocks : sin'.din.blocks = sin.din.blocks
  flags : Flagged fs fs'

theorem Unmaps.inUse_of (hu : Unmaps fs sin fs' sin' i) (hc : InUse fs c)
    (hne : c ≠ blockAt fs sin.din i) : InUse fs' c := by
  refine ⟨hc.1, hu.blocks ▸ hc.2.1, ?_⟩
  rw [hu.free, Function.update_of_ne hne]
  exact hc.2.2

theorem Unmaps.private (hu : Unmaps fs sin fs' sin' i) (hmap : MapOk fs sin.din)
    (hi : i < maxBlocks) (hne : blockAt fs sin.din i ≠ 0) :
    Private fs sin.din fs' sin'.din := by
  have hother : ∀ k < maxBlocks, k ≠ i → blockAt fs sin.din k ≠ 0 →
      blockAt fs sin.din k ≠ blockAt fs sin.din i := fun k hk hki h0 heq =>
    hki (hmap.inj k hk i hi heq h0)
  have howns : ∀ c, Owns fs' sin'.din c → Owns fs sin.din c := by
    rintro c ⟨hc, h | ⟨k, hk, h⟩⟩
    · exact ⟨hc, Or.inl (h.trans hu.indirect)⟩
    · rw [hu.map k hk] at h
      by_cases hki : k = i
      · rw [if_pos hki] at h
        exact absurd h.symm hc
      · rw [if_neg hki] at h
        exact ⟨hc, Or.inr ⟨k, hk, h⟩⟩
  refine ⟨hu.ok, ⟨fun k hk h0 => ?_, fun k hk l hl heq h0 => ?_, fun h0 => ?_⟩, hu.blocks,
    fun c hc hn => ?_, fun c hc => ?_, hu.flags⟩
  · rw [hu.map k hk] at h0 ⊢
    by_cases hki : k = i
    · rw [if_pos hki] at h0
      exact absurd rfl h0
    · rw [if_neg hki] at h0 ⊢
      exact hu.inUse_of (hmap.inUse k hk h0) (hother k hk hki h0)
  · rw [hu.map k hk] at heq h0
    rw [hu.map l hl] at heq
    by_cases hki : k = i
    · rw [if_pos hki] at h0
      exact absurd rfl h0
    · rw [if_neg hki] at heq h0
      by_cases hli : l = i
      · rw [if_pos hli] at heq
        exact absurd heq h0
      · rw [if_neg hli] at heq
        exact hmap.inj k hk l hl heq h0
  · rw [hu.indirect] at h0 ⊢
    obtain ⟨hin, hno⟩ := hmap.indirect h0
    refine ⟨hu.inUse_of hin (hno i hi).symm, fun k hk => ?_⟩
    rw [hu.map k hk]
    by_cases hki : k = i
    · rw [if_pos hki]
      exact h0.symm
    · rw [if_neg hki]
      exact hno k hk
  · have hci : c ≠ blockAt fs sin.din i := by
      rintro rfl
      exact hn (owns_blockAt hi hne)
    exact ⟨hu.inUse_of hc hci, fun ho => hn (howns c ho), hu.disk c fun h => hn ⟨hc.1, Or.inl h⟩⟩
  · have hci : c ≠ blockAt fs sin.din i := by
      rintro rfl
      have hfree := hc.2.2
      rw [hu.free, Function.update_self] at hfree
      exact absurd hfree (by decide)
    have hin : InUse fs c := by
      refine ⟨hc.1, hu.blocks ▸ hc.2.1, ?_⟩
      have hfree := hc.2.2
      rw [hu.free, Function.update_of_ne hci] at hfree
      exact hfree
    by_cases ho : Owns fs sin.din c
    · right
      obtain ⟨-, h | ⟨k, hk, h⟩⟩ := ho
      · exact ⟨hc.1, Or.inl (h.trans hu.indirect.symm)⟩
      · have hki : k ≠ i := by
          rintro rfl
          exact hci h.symm
        exact ⟨hc.1, Or.inr ⟨k, hk, by rw [hu.map k hk, if_neg hki, h]⟩⟩
    · exact Or.inl ⟨hin, ho⟩

/-- **`sfs_bmap_free_nolock`** of a mapped block. -/
theorem sfsBmapFree_spec (hok : FsOk fs) (hmap : MapOk fs sin.din) (hi : i < maxBlocks)
    (hne : blockAt fs sin.din i ≠ 0) :
    ∃ fs' sin', sfsBmapFree fs sin i = .ok (fs', sin') ∧ Unmaps fs sin fs' sin' i := by
  have hin := hmap.inUse i hi hne
  rw [sfsBmapFree]
  by_cases hd : i < SFS_NDIRECT
  · have hat : blockAt fs sin.din i = sin.din.direct i := if_pos hd
    rw [hat] at hne hin
    obtain ⟨fs', hfree, hf⟩ := sfsBlockFree_spec hok hin
    rw [if_pos hd, if_pos hne, hfree, ok_bind]
    refine ⟨fs', _, rfl, ⟨hf.ok, hf.blocks, by rw [hat]; exact hf.free, fun c _ => by rw [hf.disk],
      fun k hk => ?_, rfl, rfl, rfl, rfl, rfl, hf.flags⟩⟩
    by_cases hkd : k < SFS_NDIRECT
    · rw [blockAt, if_pos hkd, blockAt, if_pos hkd]
      by_cases hki : k = i
      · rw [if_pos hki, hki]
        exact Function.update_self _ _ _
      · rw [if_neg hki]
        exact Function.update_of_ne hki _ _
    · have hki : k ≠ i := by omega
      rw [if_neg hki, blockAt, if_neg hkd, blockAt, if_neg hkd]
      exact entryAt_congr fun _ => by rw [hf.disk]
  · have hj := index_fits hi hd
    have hat : blockAt fs sin.din i = entryAt fs sin.din.indirect (i - SFS_NDIRECT) := if_neg hd
    have hent : sin.din.indirect ≠ 0 := fun h => hne (hat.trans (if_pos h))
    obtain ⟨hein, hno⟩ := hmap.indirect hent
    obtain ⟨h₁, h₂⟩ := entry_fits hj
    have hread : read32 (fun o => fs.disk sin.din.indirect ((i - SFS_NDIRECT) * 4 + o)) 0 =
        blockAt fs sin.din i := by
      rw [read32_shift, hat, entryAt, if_neg hent]
    let fs₁ := fs.setDisk sin.din.indirect
      (memcpy (fs.disk sin.din.indirect) ((i - SFS_NDIRECT) * 4) (bytes32 0) 4)
    have hin₁ : InUse fs₁ (blockAt fs sin.din i) := hin
    obtain ⟨fs', hfree, hf⟩ := sfsBlockFree_spec (hok.setDisk _ _ : FsOk fs₁) hin₁
    have hsub : sfsBmapFreeSub fs sin.din.indirect (i - SFS_NDIRECT) = .ok fs' := by
      rw [sfsBmapFreeSub, assertInuse_spec hok hein, ok_bind, ensure_pos hj, ok_bind,
        sfsRbuf_spec hein h₁ h₂, ok_bind]
      simp only [hread]
      rw [if_pos hne, sfsWbuf_spec hein h₁ h₂, ok_bind]
      exact hfree
    rw [if_neg hd, if_pos hj, if_pos hent, hsub, ok_bind]
    refine ⟨fs', sin, rfl, ⟨hf.ok, hf.blocks, hf.free, fun c hc => ?_, fun k hk => ?_, rfl, rfl, rfl,
      rfl, rfl, ((Flagged.refl fs).setDisk hent _).trans hf.flags⟩⟩
    · rw [hf.disk]
      exact Function.update_of_ne hc _ _
    · by_cases hkd : k < SFS_NDIRECT
      · have hki : k ≠ i := by omega
        rw [if_neg hki, blockAt, if_pos hkd, blockAt, if_pos hkd]
      · have hself : fs'.disk sin.din.indirect =
            memcpy (fs.disk sin.din.indirect) ((i - SFS_NDIRECT) * 4) (bytes32 0) 4 := by
          rw [hf.disk]
          exact Function.update_self _ _ _
        rw [blockAt, if_neg hkd, entryAt, if_neg hent, hself]
        by_cases hki : k = i
        · rw [if_pos hki, hki, read32_memcpy_self (by decide)]
        · rw [if_neg hki, read32_memcpy_of_apart (by omega), blockAt, if_neg hkd, entryAt,
            if_neg hent]

end Ucore.Sfs
