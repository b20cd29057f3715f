import Ucore.Sfs.File

/-!
# The calls on one inode

`sfs_io_nolock` and `sfs_truncfile` on any inode whose blocks are mapped, in use and distinct, also
where the size and the number of blocks disagree.  `IoOutcome` and `Truncated` list the outcomes, each
with the condition on the state before the call that leads to it: `sfsIoNolock_spec`,
`sfsTruncfile_spec`.  `IoCall`, `TruncCall` and `SeekCall` add the range checks.
-/

namespace Ucore.Sfs

open Memory

variable {fs fs' : Fs} {sin sin' : Inode} {buf : Mem} {write : Bool} {offset len t i : ℕ}

/-! ### Other files -/

/-- A file whose blocks have not been touched. -/
structure SameFile (fs : Fs) (fs' : Fs) (other : DiskInode) : Prop where
  file : FileOk fs' other
  map : ∀ k, blockAt fs' other k = blockAt fs other k
  bytes : ∀ y, y / SFS_BLKSIZE < maxBlocks → byteAt fs' other y = byteAt fs other y
  owns : ∀ c, Owns fs' other c ↔ Owns fs other c

theorem FileOk.same {other : DiskInode} (hfile : FileOk fs other) (hok : FsOk fs')
    (hkeep : ∀ c, Owns fs other c → InUse fs' c ∧ fs'.disk c = fs.disk c) :
    SameFile fs fs' other := by
  have hat : ∀ k, blockAt fs' other k = blockAt fs other k := fun k =>
    blockAt_congr fun hne => (hkeep _ ⟨hne, Or.inl rfl⟩).2
  have howns : ∀ c, Owns fs' other c ↔ Owns fs other c := fun c => by simp only [Owns, hat]
  refine ⟨⟨hok, ⟨?_, ?_, ?_⟩, ?_, hfile.bound⟩, hat, ?_, howns⟩
  · intro k hk hne
    rw [hat] at hne ⊢
    exact (hkeep _ (owns_blockAt hk hne)).1
  · intro k hk l hl heq hne
    rw [hat, hat] at heq
    rw [hat] at hne
    exact hfile.map.inj k hk l hl heq hne
  · intro hne
    refine ⟨(hkeep _ ⟨hne, Or.inl rfl⟩).1, ?_⟩
    intro k hk
    rw [hat]
    exact (hfile.map.indirect hne).2 k hk
  · intro k hk
    rw [hat]
    exact hfile.filled k hk
  · intro y hy
    rw [byteAt, byteAt, hat]
    by_cases h0 : blockAt fs other (y / SFS_BLKSIZE) = 0
    · rw [if_pos h0, if_pos h0]
    · rw [if_neg h0, if_neg h0, (hkeep _ (owns_blockAt hy h0)).2]

/-- A call on one inode leaves a file alone that shares no block with it. -/
structure Untouched (fs : Fs) (fs' : Fs) (din' : DiskInode) (other : DiskInode) : Prop
    extends SameFile fs fs' other where
  apart : ∀ c, Owns fs' other c → ¬ Owns fs' din' c

theorem Private.untouched {din din' other : DiskInode} (h : Private fs din fs' din')
    (hfile : FileOk fs other) (hapart : ∀ c, Owns fs other c → ¬ Owns fs din c) :
    Untouched fs fs' din' other := by
  have hkeep : ∀ c, Owns fs other c → InUse fs' c ∧ ¬ Owns fs' din' c ∧ fs'.disk c = fs.disk c :=
    fun c hc => h.keeps c (hfile.map.inUse_of_owns hc) (hapart c hc)
  have hsame := hfile.same h.ok fun c hc => ⟨(hkeep c hc).1, (hkeep c hc).2.2⟩
  refine ⟨hsame, ?_⟩
  intro c hc
  exact (hkeep c ((hsame.owns c).mp hc)).2.1

/-! ### Reading and writing -/

/-- `sfs_bmap_load_nolock` behind the end of the file. -/
theorem sfsBmapLoad_hole (h : sin.din.blocks < i) : sfsBmapLoad fs sin i = .error .bmapIndex := by
  have hensure : ensure (i ≤ sin.din.blocks) .bmapIndex = .error .bmapIndex :=
    if_neg (Nat.not_le.mpr h)
  rw [sfsBmapLoad, hensure, error_bind]

theorem ensure_neg {cond : Prop} {inst : Decidable cond} {p : Panic} (h : ¬ cond) :
    ensure cond p = .error p := if_neg h

/-- A transfer that starts behind the end of the file. -/
theorem ioTransfer_hole {total : ℕ} (h : sin.din.blocks < offset / SFS_BLKSIZE) (htotal : 0 < total) :
    ioTransfer write offset (offset + total) ⟨0, 0, fs, sin, buf⟩ = .error .bmapIndex := by
  have hpart : ∀ blkoff size, ioPart write (offset / SFS_BLKSIZE) blkoff size ⟨0, 0, fs, sin, buf⟩ =
      .error .bmapIndex := fun blkoff size => by
    rw [ioPart, sfsBmapLoad_hole h, error_bind]
  rw [ioTransfer]
  by_cases hoff : offset % SFS_BLKSIZE ≠ 0
  · rw [if_pos hoff, hpart, error_bind]
  · rw [if_neg hoff, if_neg hoff, ok_bind, if_neg (not_not.mpr rfl)]
    cases hn : (offset + total) / SFS_BLKSIZE - offset / SFS_BLKSIZE with
    | zero =>
      show (ioBlocks write 0 (offset / SFS_BLKSIZE) _ >>= _) = _
      rw [ioBlocks, ok_bind, if_neg (not_not.mpr rfl),
        if_pos (show offset + 0 < offset + total by omega)]
      exact hpart _ _
    | succ n =>
      show (ioBlocks write (n + 1) (offset / SFS_BLKSIZE) _ >>= _) = _
      rw [ioBlocks, sfsBmapLoad_hole h, error_bind, error_bind]

/-- The range checks of `sfs_io_nolock` let the call through. -/
def Accepted (offset : ℤ) (len : ℕ) : Prop :=
  0 ≤ offset ∧ offset < SFS_MAX_FILE_SIZE ∧ offset + len < 2 ^ 63

/-- The range checks refuse the call. -/
theorem sfsIoNolock_refused {offset : ℤ} (hty : sin.din.type ≠ SFS_TYPE_DIR) (hlen : len < 2 ^ 64)
    (h : ¬ Accepted offset len) :
    sfsIoNolock fs sin buf offset len write = .ok ⟨-E_INVAL, 0, fs, sin, buf⟩ := by
  rw [sfsIoNolock, ensure_pos hty, ok_bind]
  refine if_pos ?_
  by_cases hneg : offset < 0
  · exact Or.inl hneg
  · by_cases hbig : offset ≥ SFS_MAX_FILE_SIZE
    · exact Or.inr (Or.inl hbig)
    · refine Or.inr (Or.inr ?_)
      have hge : (2 : ℤ) ^ 63 ≤ offset + len := by
        by_contra hlt
        exact h ⟨Int.not_lt.mp hneg, Int.not_le.mp hbig, Int.not_le.mp hlt⟩
      have hmax : SFS_MAX_FILE_SIZE = 134217728 := by decide
      have hwrap : (offset + len).bmod (2 ^ 64) = offset + len - 2 ^ 64 := by
        have := Int.bmod_eq_of_le (n := offset + len - 2 ^ 64) (m := 2 ^ 64) (by omega) (by omega)
        rw [← this, Int.bmod_def, Int.bmod_def]
        simp
      rw [hwrap]
      omega

/-- `d` bytes have been transferred by `sfs_io_nolock`. -/
structure Transferred (fs : Fs) (sin : Inode) (buf : Mem) (write : Bool) (offset d : ℕ) (io : Io) :
    Prop where
  alen : io.alen = d
  file : FileOk io.fs io.sin.din
  priv : Private fs sin.din io.fs io.sin.din
  nblocks : io.sin.din.blocks = max sin.din.blocks (blocksTo offset d)
  size : io.sin.din.size = max sin.din.size (offset + d)
  rest : ∀ k < maxBlocks, io.sin.din.blocks ≤ k → blockAt io.fs io.sin.din k = blockAt fs sin.din k
  bytes : Holds io.fs io.sin.din (overlay (byteAt fs sin.din) write buf offset d)
  buf : io.buf = filled (byteAt fs sin.din) write buf offset d
  ino : io.sin.ino = sin.ino
  type : io.sin.din.type = sin.din.type

theorem Moved.transferred {io : Io} {d : ℕ} (h : Moved fs sin buf write offset t d io)
    (hsmall : offset + d < 2 ^ 32) : Transferred fs sin buf write offset d (ioOut offset io) := by
  have halen := h.alen
  obtain ⟨dirty, hout⟩ := ioOut_spec (show offset + io.alen < 2 ^ 32 by omega)
  rw [hout]
  refine ⟨halen, h.reach.fileOk.setSize _, h.reach.priv.congr rfl rfl, h.reach.nblocks, ?_,
    h.reach.rest, h.bytes, h.buf, h.reach.ino, h.reach.type⟩
  show max io.sin.din.size (offset + io.alen) = _
  rw [h.reach.size, halen]

/-- A transfer that changes the inode sets its flag. -/
structure Marks (sin : Inode) (offset total : ℕ) (sin' : Inode) : Prop where
  grown : sin.din.size < offset + total → sin'.dirty = true
  same : blocksTo offset total ≤ sin.din.blocks → offset + total ≤ sin.din.size → sin' = sin

theorem Moved.marks {io : Io} {d : ℕ} (h : Moved fs sin buf write offset (blocksTo offset d) d io) :
    Marks sin offset d (ioOut offset io).sin := by
  have halen := h.alen
  have hsize := h.reach.size
  constructor
  · intro hlt
    apply ioOut_dirty
    rw [halen, hsize]
    exact hlt
  · intro hblocks hle
    have hsame : ioOut offset io = io := ioOut_same (by rw [halen, hsize]; exact hle)
    rw [hsame]
    exact (h.same hblocks).1

/-- The outcomes of `sfs_io_nolock` for `total` bytes at `offset`. -/
inductive IoOutcome (fs : Fs) (sin : Inode) (buf : Mem) (write : Bool) (offset total : ℕ) :
    Except Panic Io → Prop
  | hole (h : sin.din.blocks < offset / SFS_BLKSIZE) :
      IoOutcome fs sin buf write offset total (.error .bmapIndex)
  | all {io : Io} (hstart : offset / SFS_BLKSIZE ≤ sin.din.blocks)
      (h : Transferred fs sin buf write offset total io) (hret : io.ret = 0)
      (hfit : blocksTo offset total ≤ maxBlocks)
      (hcount : demand fs sin.din (blocksTo offset total) ≤ fs.freemap.count)
      (hmarks : Marks sin offset total io.sin) :
      IoOutcome fs sin buf write offset total (.ok io)
  | full {io : Io} {d : ℕ} (hstart : offset / SFS_BLKSIZE ≤ sin.din.blocks)
      (h : Transferred fs sin buf write offset d io) (hret : io.ret = -E_NO_MEM) (hd : d < total)
      (hedge : d = 0 ∨ SFS_BLKSIZE ∣ offset + d)
      (hblocks : io.sin.din.blocks = (offset + d) / SFS_BLKSIZE)
      (hfirst : d = 0 → NoBlock fs sin.din)
      (hcount : fs.freemap.count < demand fs sin.din (min (blocksTo offset total) maxBlocks))
      (hlast : NoBlock io.fs io.sin.din) :
      IoOutcome fs sin buf write offset total (.ok io)
  | outOfRange (hstart : offset / SFS_BLKSIZE ≤ sin.din.blocks)
      (hi : maxBlocks < blocksTo offset total)
      (hcount : demand fs sin.din maxBlocks ≤ fs.freemap.count) :
      IoOutcome fs sin buf write offset total (.error .indexOutOfRange)

theorem lt_blocksTo (h : i * SFS_BLKSIZE < offset + len) (hlen : len ≠ 0) :
    i < blocksTo offset len := by
  rw [blocksTo, if_neg hlen]
  rw [SFS_BLKSIZE] at *
  omega

/-- **`sfs_io_nolock`** of a positive number of bytes in the range that it accepts. -/
theorem sfsIoNolock_spec (write : Bool) (buf : Mem) (hty : sin.din.type ≠ SFS_TYPE_DIR)
    (h : FileOk fs sin.din) (hoff : offset < maxFileSize) (hlen : 0 < len)
    (hsmall : offset + len < 2 ^ 63) (hread : write = false → offset < sin.din.size) :
    IoOutcome fs sin buf write offset (ioLen write sin.din offset len)
      (sfsIoNolock fs sin buf offset len write) := by
  have hpos : 0 < ioLen write sin.din offset len := by
    rw [ioLen]
    cases write with
    | true =>
      rw [if_pos rfl]
      omega
    | false =>
      have := hread rfl
      rw [if_neg Bool.false_ne_true]
      omega
  have hend : offset + ioLen write sin.din offset len ≤ maxFileSize := by
    rw [ioLen]
    cases write with
    | true =>
      rw [if_pos rfl]
      omega
    | false =>
      rw [if_neg Bool.false_ne_true]
      omega
  have hmax : maxFileSize < 2 ^ 32 := by
    rw [maxFileSize]
    omega
  rw [sfsIoNolock_eq hty hoff hlen hsmall hread]
  by_cases hstart : offset / SFS_BLKSIZE ≤ sin.din.blocks
  · have ht := ioTransfer_spec write buf h hstart hpos
    generalize ioTransfer write offset (offset + ioLen write sin.din offset len)
      ⟨0, 0, fs, sin, buf⟩ = x at ht
    generalize ioLen write sin.din offset len = total at *
    cases ht with
    | @all io hm hret =>
      rw [ok_bind]
      have hnb := hm.reach.nblocks
      have hbound := hm.reach.bound
      have hfit : blocksTo offset total ≤ maxBlocks := by omega
      refine .all hstart (hm.transferred (by omega)) ?_ hfit ?_ hm.marks
      · obtain ⟨dirty, hout⟩ := ioOut_spec
          (show offset + _ < 2 ^ 32 by rw [hm.alen]; omega)
        rw [hout]
        exact hret
      · have hbudget := hm.reach.budget
        have hzero : demand io.fs io.sin.din (blocksTo offset total) = 0 := demand_of_le (by omega)
        rw [Nat.min_eq_left hfit, hzero] at hbudget
        omega
    | stops hs =>
      cases hs with
      | full hm hret hd hedge hblocks hfirst hcount hlast =>
        rw [ok_bind]
        obtain ⟨dirty, hout⟩ := ioOut_spec
          (show offset + _ < 2 ^ 32 by rw [hm.alen]; omega)
        refine .full hstart (hm.transferred (by omega)) ?_ hd hedge ?_ hfirst hcount ?_
        · rw [hout]
          exact hret
        · rw [hout]
          exact hblocks
        · rw [hout]
          exact hlast
      | outOfRange hi hcount =>
        have hlt := lt_blocksTo hi (by omega)
        rw [Nat.min_eq_right (by omega)] at hcount
        rw [error_bind]
        exact .outOfRange hstart hlt hcount
  · rw [ioTransfer_hole (Nat.not_le.mp hstart) hpos, error_bind]
    exact .hole (Nat.not_le.mp hstart)

/-! ### Truncation -/

/-- The number of blocks of a file of `len` bytes. -/
def blocksOf (len : ℕ) : ℕ := (len + SFS_BLKSIZE - 1) / SFS_BLKSIZE

/-- The file has been resized to `len` bytes. -/
structure Resized (fs : Fs) (sin : Inode) (len : ℕ) (fs' : Fs) (sin' : Inode) : Prop where
  file : FileOk fs' sin'.din
  priv : Private fs sin.din fs' sin'.din
  nblocks : sin'.din.blocks = blocksOf len
  size : sin'.din.size = len
  rest : ∀ k < maxBlocks, max (blocksOf len) sin.din.blocks ≤ k →
    blockAt fs' sin'.din k = blockAt fs sin.din k
  cut : ∀ k < maxBlocks, blocksOf len ≤ k → k < sin.din.blocks → blockAt fs' sin'.din k = 0
  bytes : Holds fs' sin'.din fun y =>
    if blocksOf len ≤ y / SFS_BLKSIZE ∧ y / SFS_BLKSIZE < sin.din.blocks then 0
    else byteAt fs sin.din y
  ino : sin'.ino = sin.ino
  type : sin'.din.type = sin.din.type
  dirty : sin'.dirty = true

/-- The outcomes of `sfs_truncfile`. -/
inductive Truncated (fs : Fs) (sin : Inode) (len : ℕ) : Except Panic (ℤ × Fs × Inode) → Prop
  | same (hsize : sin.din.size = len) (hblocks : blocksOf len = sin.din.blocks) :
      Truncated fs sin len (.ok (0, fs, sin))
  | mismatch (hsize : sin.din.size = len) (hblocks : blocksOf len ≠ sin.din.blocks) :
      Truncated fs sin len (.error .truncBlocks)
  | resized {fs' : Fs} {sin' : Inode} (hsize : sin.din.size ≠ len)
      (h : Resized fs sin len fs' sin')
      (hcount : demand fs sin.din (blocksOf len) ≤ fs.freemap.count) :
      Truncated fs sin len (.ok (0, fs', sin'))
  | full {fs' : Fs} {sin' : Inode} {m : ℕ} (hsize : sin.din.size ≠ len)
      (h : Reaches fs sin fs' sin' m (min (blocksOf len) maxBlocks))
      (hlt : sin'.din.blocks < blocksOf len)
      (hcount : fs.freemap.count < demand fs sin.din (min (blocksOf len) maxBlocks))
      (hf : Holds fs' sin'.din (byteAt fs sin.din)) :
      Truncated fs sin len (.ok (-E_NO_MEM, fs', sin'))
  | outOfRange (hsize : sin.din.size ≠ len) (hlt : maxBlocks < blocksOf len)
      (hcount : demand fs sin.din maxBlocks ≤ fs.freemap.count) :
      Truncated fs sin len (.error .indexOutOfRange)

theorem sfsTruncfile_refused {len : ℤ} (h : len < 0 ∨ len > SFS_MAX_FILE_SIZE) :
    sfsTruncfile fs sin len = .ok (-E_INVAL, fs, sin) := if_pos h

/-- **`sfs_truncfile`** in the range that it accepts. -/
theorem sfsTruncfile_spec (h : FileOk fs sin.din) (hlen : len ≤ maxFileSize) :
    Truncated fs sin len (sfsTruncfile fs sin len) := by
  have hmax : SFS_MAX_FILE_SIZE = (maxFileSize : ℤ) := rfl
  have hrange : ¬ ((len : ℤ) < 0 ∨ (len : ℤ) > maxFileSize) := by omega
  rw [sfsTruncfile, hmax, if_neg hrange, Int.toNat_natCast]
  show Truncated fs sin len (if (sin.din.size : ℤ) = len then
    ensure (blocksOf len = sin.din.blocks) .truncBlocks >>= _ else _)
  by_cases hsize : sin.din.size = len
  · rw [if_pos (congrArg Nat.cast hsize)]
    by_cases hblocks : blocksOf len = sin.din.blocks
    · rw [ensure_pos hblocks, ok_bind]
      exact .same hsize hblocks
    · rw [ensure_neg hblocks, error_bind]
      exact .mismatch hsize hblocks
  · have hcast : ¬ (sin.din.size : ℤ) = (len : ℤ) := by omega
    rw [if_neg hcast]
    by_cases hlt : sin.din.blocks < blocksOf len
    · show Truncated fs sin len ((if sin.din.blocks < blocksOf len then
        growLoop (blocksOf len - sin.din.blocks) sin.din.blocks fs sin else _) >>= _)
      rw [if_pos hlt]
      have hsum : sin.din.blocks + (blocksOf len - sin.din.blocks) = blocksOf len := by omega
      have hgrown := growLoop_spec (k := blocksOf len - sin.din.blocks)
        (Reaches.refl h (min (sin.din.blocks + (blocksOf len - sin.din.blocks)) maxBlocks))
        fun y _ => rfl
      rw [hsum] at hgrown
      generalize growLoop (blocksOf len - sin.din.blocks) sin.din.blocks fs sin = x at hgrown
      cases hgrown with
      | @all fs' sin' hr hf =>
        have hnb := hr.nblocks
        have hbound := hr.bound
        have hend : sin'.din.blocks = blocksOf len := by omega
        rw [ok_bind]
        show Truncated fs sin len (if (0 : ℤ) ≠ 0 then _ else
          ensure (sin'.din.blocks = blocksOf len) .truncBlocks >>= _)
        rw [if_neg (not_not.mpr rfl), ensure_pos hend, ok_bind]
        refine .resized hsize ⟨hr.fileOk.setSize _, hr.priv.congr rfl rfl, hend, rfl,
          fun k hk hge => hr.rest k hk (by omega), fun k hk hge hltk => by omega, fun y hy => ?_,
          hr.ino, hr.type, rfl⟩ ?_
        · exact (hf y hy).trans (if_neg (by omega)).symm
        · have hbudget := hr.budget
          have hzero : demand fs' sin'.din (blocksOf len) = 0 := demand_of_le (by omega)
          rw [Nat.min_eq_left (by omega), hzero] at hbudget
          omega
      | full hr hm hcount hf =>
        rw [ok_bind]
        show Truncated fs sin len (if -E_NO_MEM ≠ 0 then _ else _)
        rw [if_pos (by decide)]
        exact .full hsize hr hm hcount hf
      | outOfRange ht hcount =>
        rw [Nat.min_eq_right (by omega)] at hcount
        rw [error_bind]
        exact .outOfRange hsize ht hcount
    · show Truncated fs sin len ((if sin.din.blocks < blocksOf len then _ else
        (shrinkLoop (sin.din.blocks - blocksOf len) fs sin).map _) >>= _)
      rw [if_neg hlt]
      obtain ⟨fs', sin', heq, hs⟩ := shrinkLoop_spec h
        (show sin.din.blocks - blocksOf len ≤ sin.din.blocks from Nat.sub_le _ _)
      have hsub : sin.din.blocks - (sin.din.blocks - blocksOf len) = blocksOf len := by omega
      rw [hsub] at hs
      rw [heq]
      show Truncated fs sin len (Except.ok ((0 : ℤ), fs', sin') >>= _)
      rw [ok_bind]
      show Truncated fs sin len (if (0 : ℤ) ≠ 0 then _ else
        ensure (sin'.din.blocks = blocksOf len) .truncBlocks >>= _)
      rw [if_neg (not_not.mpr rfl), ensure_pos hs.nblocks, ok_bind]
      refine .resized hsize ⟨hs.file.setSize _, hs.priv.congr rfl rfl, hs.nblocks, rfl,
        fun k hk hge => ?_, fun k hk hge hltk => ?_, fun y hy => hs.bytes h.map hy, hs.ino,
        hs.type, rfl⟩ ?_
      · exact (hs.map k hk).trans (if_neg (by omega))
      · exact (hs.map k hk).trans (if_pos ⟨hge, hltk⟩)
      · rw [demand_of_le (Nat.not_lt.mp hlt)]
        exact Nat.zero_le _

/-! ### Any arguments -/

/-- The outcomes of `sfs_io_nolock`: the range checks refuse it, there is nothing to transfer, or
bytes are transferred. -/
inductive IoCall (fs : Fs) (sin : Inode) (buf : Mem) (write : Bool) (pos : ℤ) (len : ℕ) :
    Except Panic Io → Prop
  | refused (h : ¬ Accepted pos len) : IoCall fs sin buf write pos len (.ok ⟨-E_INVAL, 0, fs, sin, buf⟩)
  | nothing (h : Accepted pos len) (hn : len = 0 ∨ write = false ∧ (sin.din.size : ℤ) ≤ pos) :
      IoCall fs sin buf write pos len (.ok ⟨0, 0, fs, sin, buf⟩)
  | moves {offset : ℕ} {x : Except Panic Io} (hpos : pos = offset) (hoff : offset < maxFileSize)
      (hlen : 0 < len) (hsmall : offset + len < 2 ^ 63)
      (hread : write = false → offset < sin.din.size)
      (h : IoOutcome fs sin buf write offset (ioLen write sin.din offset len) x) :
      IoCall fs sin buf write pos len x

/-- **`sfs_io_nolock`** at any position. -/
theorem sfsIoNolock_call (buf : Mem) (write : Bool) (pos : ℤ) (hty : sin.din.type ≠ SFS_TYPE_DIR) (h : FileOk fs sin.din)
    (hlen : len < 2 ^ 64) :
    IoCall fs sin buf write pos len (sfsIoNolock fs sin buf pos len write) := by
  have hmax : SFS_MAX_FILE_SIZE = (maxFileSize : ℤ) := rfl
  by_cases hacc : Accepted pos len
  · obtain ⟨h₀, h₁, h₂⟩ := hacc
    obtain ⟨offset, rfl⟩ := Int.eq_ofNat_of_zero_le h₀
    rw [hmax] at h₁
    have hoff : offset < maxFileSize := by omega
    have hsmall : offset + len < 2 ^ 63 := by omega
    by_cases hzero : len = 0
    · subst hzero
      rw [sfsIoNolock_zero hty hoff]
      exact .nothing ⟨h₀, hmax ▸ h₁, h₂⟩ (Or.inl rfl)
    · by_cases hread : write = false → offset < sin.din.size
      · exact .moves rfl hoff (Nat.pos_of_ne_zero hzero) hsmall hread
          (sfsIoNolock_spec write buf hty h hoff (Nat.pos_of_ne_zero hzero) hsmall hread)
      · rw [Classical.not_imp] at hread
        obtain ⟨rfl, hge⟩ := hread
        rw [sfsIoNolock_past hty hoff hsmall (Nat.not_lt.mp hge)]
        exact .nothing ⟨h₀, hmax ▸ h₁, h₂⟩ (Or.inr ⟨rfl, by omega⟩)
  · rw [sfsIoNolock_refused hty hlen hacc]
    exact .refused hacc

/-- The outcomes of `sfs_truncfile` for any length. -/
inductive TruncCall (fs : Fs) (sin : Inode) (len : ℤ) : Except Panic (ℤ × Fs × Inode) → Prop
  | refused (h : len < 0 ∨ len > SFS_MAX_FILE_SIZE) : TruncCall fs sin len (.ok (-E_INVAL, fs, sin))
  | resizes {n : ℕ} {x : Except Panic (ℤ × Fs × Inode)} (hlen : len = n) (hn : n ≤ maxFileSize)
      (h : Truncated fs sin n x) : TruncCall fs sin len x

theorem sfsTruncfile_call (len : ℤ) (h : FileOk fs sin.din) :
    TruncCall fs sin len (sfsTruncfile fs sin len) := by
  have hmax : SFS_MAX_FILE_SIZE = (maxFileSize : ℤ) := rfl
  by_cases hrange : len < 0 ∨ len > SFS_MAX_FILE_SIZE
  · rw [sfsTruncfile_refused hrange]
    exact .refused hrange
  · rw [hmax] at hrange
    obtain ⟨n, rfl⟩ := Int.eq_ofNat_of_zero_le (show 0 ≤ len by omega)
    exact .resizes rfl (by omega) (sfsTruncfile_spec h (by omega))

/-- The outcomes of `sfs_tryseek`: the range check refuses it, the position is in the file, or the file
grows. -/
inductive SeekCall (fs : Fs) (sin : Inode) (pos : ℤ) : Except Panic (ℤ × Fs × Inode) → Prop
  | refused (h : pos < 0 ∨ pos ≥ SFS_MAX_FILE_SIZE) : SeekCall fs sin pos (.ok (-E_INVAL, fs, sin))
  | inside (h₀ : 0 ≤ pos) (h : pos ≤ sin.din.size) : SeekCall fs sin pos (.ok (0, fs, sin))
  | grows {n : ℕ} {x : Except Panic (ℤ × Fs × Inode)} (hpos : pos = n) (hn : n < maxFileSize)
      (hgt : sin.din.size < n) (h : Truncated fs sin n x) : SeekCall fs sin pos x

theorem sfsTryseek_call (pos : ℤ) (h : FileOk fs sin.din) :
    SeekCall fs sin pos (sfsTryseek fs sin pos) := by
  have hmax : SFS_MAX_FILE_SIZE = (maxFileSize : ℤ) := rfl
  rw [sfsTryseek]
  by_cases hrange : pos < 0 ∨ pos ≥ SFS_MAX_FILE_SIZE
  · rw [if_pos hrange]
    exact .refused hrange
  · rw [if_neg hrange]
    rw [hmax] at hrange
    obtain ⟨n, rfl⟩ := Int.eq_ofNat_of_zero_le (show 0 ≤ pos by omega)
    by_cases hgt : (n : ℤ) > sin.din.size
    · rw [if_pos hgt]
      exact .grows rfl (by omega) (by omega) (sfsTruncfile_spec h (by omega))
    · rw [if_neg hgt]
      exact .inside (by omega) (by omega)

end Ucore.Sfs
