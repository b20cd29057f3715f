import Ucore.Sfs.Transfer

/-!
# Regular files as byte arrays

`sfsIoNolock_eq` removes the range checks of `sfs_io_nolock`, so that `ioTransfer_spec` says what a
read or a write does; `truncfile_spec` does the same for `sfs_truncfile`.

**`file_refines_bytes`**: on a well-formed regular file, with enough free blocks, a write replaces the
bytes `[offset, offset + len)` and nothing else, and a read returns the bytes of the file and changes
nothing.
-/

namespace Ucore.Sfs

open Memory

variable {fs fs' : Fs} {sin sin' : Inode} {buf : Mem} {write : Bool} {offset len t : ℕ}

/-- `SFS_MAX_FILE_SIZE` as a natural number. -/
def maxFileSize : ℕ := 1024 * 1024 * 128

/-- The bytes that `sfs_io_nolock` transfers, after its range checks. -/
def ioLen (write : Bool) (din : DiskInode) (offset len : ℕ) : ℕ :=
  (if write = true then min (offset + len) maxFileSize
    else min (min (offset + len) maxFileSize) din.size) - offset

/-- **`sfs_io_nolock`** in the range that it accepts. -/
theorem sfsIoNolock_eq (hty : sin.din.type ≠ SFS_TYPE_DIR) (hoff : offset < maxFileSize)
    (hlen : 0 < len) (hsmall : offset + len < 2 ^ 63)
    (hread : write = false → offset < sin.din.size) :
    sfsIoNolock fs sin buf offset len write =
      (ioTransfer write offset (offset + ioLen write sin.din offset len) ⟨0, 0, fs, sin, buf⟩ >>=
        fun io => .ok (ioOut offset io)) := by
  have hmax : SFS_MAX_FILE_SIZE = (maxFileSize : ℤ) := rfl
  have hend : ((offset : ℤ) + len).bmod (2 ^ 64) = ((offset + len : ℕ) : ℤ) := by
    rw [Int.bmod_eq_of_le (by omega) (by omega)]
    omega
  have hrange : ¬ ((offset : ℤ) < 0 ∨ (offset : ℤ) ≥ maxFileSize ∨
      (offset : ℤ) > ((offset + len : ℕ) : ℤ)) := by omega
  have hne : ¬ (offset : ℤ) = ((offset + len : ℕ) : ℤ) := by omega
  have hnotread : ¬ (write = false ∧ (offset : ℤ) ≥ sin.din.size) := by
    rintro ⟨hw, hge⟩
    have := hread hw
    omega
  have hlast : (if write = true then min ((offset + len : ℕ) : ℤ) maxFileSize
      else min (min ((offset + len : ℕ) : ℤ) maxFileSize) sin.din.size).toNat =
      offset + ioLen write sin.din offset len := by
    rw [ioLen]
    cases write with
    | true =>
      rw [if_pos rfl, if_pos rfl]
      omega
    | false =>
      have := hread rfl
      rw [if_neg Bool.false_ne_true, if_neg Bool.false_ne_true]
      omega
  rw [sfsIoNolock, ensure_pos hty, ok_bind]
  simp only [hend, hmax]
  rw [if_neg hrange, if_neg hne, if_neg hnotread, hlast, Int.toNat_natCast]

theorem ioLen_le : ioLen write sin.din offset len ≤ len := by
  rw [ioLen]
  cases write with
  | true =>
    rw [if_pos rfl]
    omega
  | false =>
    rw [if_neg Bool.false_ne_true]
    omega

theorem blocksTo_le (h : offset + len ≤ maxBlocks * SFS_BLKSIZE) :
    blocksTo offset len ≤ maxBlocks := by
  rw [blocksTo]
  by_cases hl : len = 0
  · rw [if_pos hl]
    exact Nat.zero_le _
  · rw [if_neg hl]
    have : (offset + len + SFS_BLKSIZE - 1) / SFS_BLKSIZE < maxBlocks + 1 := by
      rw [Nat.div_lt_iff_lt_mul (by decide), Nat.succ_mul]
      rw [SFS_BLKSIZE] at *
      omega
    omega

/-- A well-formed regular file: as many blocks as its size takes, all of them mapped, in use and
distinct. -/
structure RegularFile (fs : Fs) (din : DiskInode) : Prop where
  type : din.type = SFS_TYPE_FILE
  file : FileOk fs din
  nblocks : din.blocks = (din.size + SFS_BLKSIZE - 1) / SFS_BLKSIZE

/-- The transfer of a write that finds all blocks that it needs. -/
theorem transfer_all (write : Bool) (buf : Mem) (h : FileOk fs sin.din) (hstart : offset / SFS_BLKSIZE ≤ sin.din.blocks)
    (hlen : 0 < len) (hfit : offset + len ≤ maxBlocks * SFS_BLKSIZE)
    (hfree : demand fs sin.din (blocksTo offset len) ≤ fs.freemap.count) :
    ∃ io, ioTransfer write offset (offset + len) ⟨0, 0, fs, sin, buf⟩ = .ok io ∧ io.ret = 0 ∧
      Moved fs sin buf write offset (blocksTo offset len) len io := by
  have hmin : min (blocksTo offset len) maxBlocks = blocksTo offset len :=
    Nat.min_eq_left (blocksTo_le hfit)
  have ht := ioTransfer_spec write buf h hstart hlen
  generalize ioTransfer write offset (offset + len) ⟨0, 0, fs, sin, buf⟩ = x at ht
  cases ht with
  | all hm hret => exact ⟨_, rfl, hret, hm⟩
  | stops hs =>
    cases hs with
    | full _ _ _ _ _ _ hcount =>
      rw [hmin] at hcount
      exact absurd hfree (Nat.not_le.mpr hcount)
    | outOfRange hi _ => exact absurd hfit (Nat.not_le.mpr hi)

/-- The label `out` moves the size to the end of the transfer. -/
theorem ioOut_spec {io : Io} (hsmall : offset + io.alen < 2 ^ 32) :
    ∃ dirty, ioOut offset io = { io with
      sin := ⟨{ io.sin.din with size := max io.sin.din.size (offset + io.alen) }, io.sin.ino,
        dirty⟩ } := by
  rw [ioOut]
  by_cases h : offset + io.alen > io.sin.din.size
  · refine ⟨true, ?_⟩
    rw [if_pos h, Nat.mod_eq_of_lt hsmall, Nat.max_eq_right (Nat.le_of_lt h)]
  · refine ⟨io.sin.dirty, ?_⟩
    rw [if_neg h, Nat.max_eq_left (Nat.not_lt.mp h)]

/-- A size that has changed sets the flag of the inode. -/
theorem ioOut_dirty {io : Io} (h : io.sin.din.size < offset + io.alen) :
    (ioOut offset io).sin.dirty = true := by rw [ioOut, if_pos h]

theorem ioOut_same {io : Io} (h : offset + io.alen ≤ io.sin.din.size) : ioOut offset io = io :=
  if_neg (Nat.not_lt.mpr h)

theorem FileOk.setSize {din : DiskInode} (h : FileOk fs din) (size : ℕ) :
    FileOk fs { din with size := size } :=
  ⟨h.ok, ⟨h.map.inUse, h.map.inj, h.map.indirect⟩, h.filled, h.bound⟩

theorem RegularFile.ne_dir {din : DiskInode} (h : RegularFile fs din) :
    din.type ≠ SFS_TYPE_DIR := by
  rw [h.type]
  decide

theorem RegularFile.start {din : DiskInode} (h : RegularFile fs din) (hoff : offset ≤ din.size) :
    offset / SFS_BLKSIZE ≤ din.blocks := by
  rw [h.nblocks]
  rw [SFS_BLKSIZE] at *
  omega

/-- An empty transfer. -/
theorem sfsIoNolock_zero (hty : sin.din.type ≠ SFS_TYPE_DIR) (hoff : offset < maxFileSize) :
    sfsIoNolock fs sin buf offset 0 write = .ok ⟨0, 0, fs, sin, buf⟩ := by
  have hmax : SFS_MAX_FILE_SIZE = (maxFileSize : ℤ) := rfl
  have hend : ((offset : ℤ) + ((0 : ℕ) : ℤ)).bmod (2 ^ 64) = offset := by
    rw [maxFileSize] at hoff
    rw [Int.bmod_eq_of_le (by omega) (by omega)]
    omega
  rw [sfsIoNolock, ensure_pos hty, ok_bind]
  simp only [hend, hmax]
  rw [if_neg (by omega), if_pos trivial]

/-- A read at the end of the file or behind it. -/
theorem sfsIoNolock_past (hty : sin.din.type ≠ SFS_TYPE_DIR) (hoff : offset < maxFileSize)
    (hsmall : offset + len < 2 ^ 63) (hge : sin.din.size ≤ offset) :
    sfsIoNolock fs sin buf offset len false = .ok ⟨0, 0, fs, sin, buf⟩ := by
  by_cases hlen : len = 0
  · rw [hlen]
    exact sfsIoNolock_zero hty hoff
  · have hmax : SFS_MAX_FILE_SIZE = (maxFileSize : ℤ) := rfl
    have hend : ((offset : ℤ) + len).bmod (2 ^ 64) = ((offset + len : ℕ) : ℤ) := by
      rw [Int.bmod_eq_of_le (by omega) (by omega)]
      omega
    have hrange : ¬ ((offset : ℤ) < 0 ∨ (offset : ℤ) ≥ maxFileSize ∨
        (offset : ℤ) > ((offset + len : ℕ) : ℤ)) := by omega
    have hne : ¬ (offset : ℤ) = ((offset + len : ℕ) : ℤ) := by omega
    have hpast : (offset : ℤ) ≥ sin.din.size := by omega
    rw [sfsIoNolock, ensure_pos hty, ok_bind]
    simp only [hend, hmax]
    rw [if_neg hrange, if_neg hne, if_pos ⟨trivial, hpast⟩]

/-- A write to a regular file. -/
theorem write_spec (h : RegularFile fs sin.din) (hoff : offset ≤ sin.din.size)
    (hfit : offset + len ≤ maxBlocks * SFS_BLKSIZE)
    (hfree : demand fs sin.din (blocksTo offset len) ≤ fs.freemap.count) (buf : Mem) :
    ∃ io, sfsIoNolock fs sin buf offset len true = .ok io ∧ io.ret = 0 ∧ io.alen = len ∧
      RegularFile io.fs io.sin.din ∧ io.sin.din.size = max sin.din.size (offset + len) ∧
      Private fs sin.din io.fs io.sin.din ∧ Holds io.fs io.sin.din (fun y =>
        if offset ≤ y ∧ y < offset + len then buf (y - offset) else byteAt fs sin.din y) := by
  have hconst : maxBlocks * SFS_BLKSIZE = 4243456 := by decide
  have hm : offset < maxFileSize := by
    rw [maxFileSize]
    omega
  by_cases hlen : len = 0
  · subst hlen
    refine ⟨_, sfsIoNolock_zero h.ne_dir hm, rfl, rfl, h, ?_, Private.refl h.file.ok h.file.map,
      fun y _ => (if_neg ?_).symm⟩
    · show sin.din.size = _
      omega
    · omega
  · have hpos : 0 < len := Nat.pos_of_ne_zero hlen
    have hlast : ioLen true sin.din offset len = len := by
      rw [ioLen, if_pos rfl, maxFileSize]
      omega
    obtain ⟨io, heq, hret, hmoved⟩ := transfer_all true buf h.file (h.start hoff) hpos hfit
      hfree
    have halen := hmoved.alen
    obtain ⟨dirty, hout⟩ := ioOut_spec (show offset + io.alen < 2 ^ 32 by omega)
    have hsize : max io.sin.din.size (offset + io.alen) = max sin.din.size (offset + len) := by
      rw [hmoved.reach.size, halen]
    rw [hsize] at hout
    have hrun : sfsIoNolock fs sin buf offset len true = .ok (ioOut offset io) := by
      rw [sfsIoNolock_eq h.ne_dir hm hpos (by omega) (fun hw => absurd hw.symm Bool.false_ne_true),
        hlast, heq, ok_bind]
    rw [hout] at hrun
    refine ⟨_, hrun, hret, halen, ⟨hmoved.reach.type.trans h.type, hmoved.reach.fileOk.setSize _, ?_⟩,
      rfl, hmoved.reach.priv.congr rfl rfl, fun y hy => ?_⟩
    · show io.sin.din.blocks = (max sin.din.size (offset + len) + SFS_BLKSIZE - 1) / SFS_BLKSIZE
      rw [hmoved.reach.nblocks, blocksTo, if_neg hlen, h.nblocks]
      rw [SFS_BLKSIZE] at *
      omega
    · refine (hmoved.bytes y hy).trans ?_
      rw [overlay]
      exact if_congr (and_iff_right rfl) rfl rfl

/-- A read of a regular file. -/
theorem read_spec (h : RegularFile fs sin.din) (hoff : offset ≤ sin.din.size)
    (hfit : offset + len ≤ maxBlocks * SFS_BLKSIZE) (buf : Mem) :
    sfsIoNolock fs sin buf offset len false = .ok ⟨0, min len (sin.din.size - offset), fs, sin,
      fun x => if x < min len (sin.din.size - offset) then byteAt fs sin.din (offset + x)
        else buf x⟩ := by
  have hconst : maxBlocks * SFS_BLKSIZE = 4243456 := by decide
  have hm : offset < maxFileSize := by
    rw [maxFileSize]
    omega
  by_cases hn : min len (sin.din.size - offset) = 0
  · have heq : sfsIoNolock fs sin buf offset len false = .ok ⟨0, 0, fs, sin, buf⟩ := by
      by_cases hlen : len = 0
      · rw [hlen]
        exact sfsIoNolock_zero h.ne_dir hm
      · exact sfsIoNolock_past h.ne_dir hm (by omega) (by omega)
    have hbuf : (fun x => if x < 0 then byteAt fs sin.din (offset + x) else buf x) = buf :=
      funext fun x => if_neg (Nat.not_lt_zero x)
    rw [hn, hbuf, heq]
  · have hlast : ioLen false sin.din offset len = min len (sin.din.size - offset) := by
      rw [ioLen, if_neg Bool.false_ne_true, maxFileSize]
      omega
    have hle : blocksTo offset (min len (sin.din.size - offset)) ≤ sin.din.blocks := by
      rw [blocksTo, if_neg hn, h.nblocks]
      rw [SFS_BLKSIZE] at *
      omega
    obtain ⟨io, heq, hret, hmoved⟩ := transfer_all false buf h.file (h.start hoff)
      (Nat.pos_of_ne_zero hn) (by omega) (by rw [demand_of_le hle]; omega)
    obtain ⟨hsin, hkeep⟩ := hmoved.same hle
    have hfs := hkeep rfl
    have halen := hmoved.alen
    have hbuf := hmoved.buf
    rw [sfsIoNolock_eq h.ne_dir hm (by omega) (by omega) (fun _ => by omega), hlast, heq, ok_bind,
      ioOut, if_neg (by rw [hsin, halen]; omega)]
    obtain ⟨ret, alen, fs', sin', buf'⟩ := io
    simp only at hret hfs hsin halen hbuf
    rw [hret, hfs, hsin, halen, hbuf]
    congr 2
    funext x
    rw [filled]
    exact if_congr (and_iff_right rfl) rfl rfl

/-- **A regular file is a byte array.**  A write at an offset up to the size returns 0, transfers all
bytes, and replaces the bytes `[offset, offset + len)` of the file and nothing else, neither in this
file nor in a block that belongs to something else.  A read returns the bytes of the file up to its
size, and changes nothing.  A write may need `demand` free blocks. -/
theorem file_refines_bytes (offset len : ℕ) (h : RegularFile fs sin.din)
    (hoff : offset ≤ sin.din.size) (hfit : offset + len ≤ 1036 * 4096) (buf : Mem) :
    (demand fs sin.din (blocksTo offset len) ≤ fs.freemap.count →
      ∃ io, sfsIoNolock fs sin buf offset len true = .ok io ∧ io.ret = 0 ∧ io.alen = len ∧
        io.sin.din.size = max sin.din.size (offset + len) ∧
        io.sin.din.blocks = (io.sin.din.size + 4096 - 1) / 4096 ∧
        (∀ y < io.sin.din.size, byteAt io.fs io.sin.din y =
          if offset ≤ y ∧ y < offset + len then buf (y - offset) else byteAt fs sin.din y) ∧
        (∀ c, InUse fs c → ¬ Owns fs sin.din c →
          InUse io.fs c ∧ ¬ Owns io.fs io.sin.din c ∧ io.fs.disk c = fs.disk c) ∧
        RegularFile io.fs io.sin.din) ∧
    ∃ io, sfsIoNolock fs sin buf offset len false = .ok io ∧ io.ret = 0 ∧
      io.alen = min (offset + len) sin.din.size - offset ∧ io.fs = fs ∧ io.sin = sin ∧
      ∀ x, io.buf x = if x < io.alen then byteAt fs sin.din (offset + x) else buf x := by
  refine ⟨fun hfree => ?_, ?_⟩
  · obtain ⟨io, heq, hret, halen, hreg, hsize, hpriv, hbytes⟩ := write_spec h hoff hfit hfree buf
    refine ⟨io, heq, hret, halen, hsize, hreg.nblocks, fun y hy => hbytes y ?_, hpriv.keeps, hreg⟩
    have hbound := hreg.file.bound
    have hnb := hreg.nblocks
    rw [SFS_BLKSIZE] at *
    omega
  · have hn : min (offset + len) sin.din.size - offset = min len (sin.din.size - offset) := by omega
    refine ⟨_, read_spec h hoff hfit buf, rfl, hn.symm, rfl, rfl, fun x => rfl⟩

/-- A file system of eight blocks, four of them free. -/
def tinyFs : Fs :=
  { blocks := 8, unusedBlocks := 4, freemap := ⟨32, 1, fun _ => 0xF0⟩, superDirty := false,
    disk := fun _ _ => 0 }

/-- An empty file in it. -/
def emptyFile : Inode :=
  { din := { size := 0, type := SFS_TYPE_FILE, blocks := 0, direct := fun _ => 0, indirect := 0 },
    ino := 3, dirty := false }

theorem fsOk_tinyFs : FsOk tinyFs := ⟨rfl, by decide, by decide, by decide, by decide⟩

theorem FsOk.regularFile (hok : FsOk fs) : RegularFile fs emptyFile.din := by
  have h0 : ∀ i, blockAt fs emptyFile.din i = 0 := fun i => ite_self _
  refine ⟨rfl, ⟨hok, ⟨fun i _ h => absurd (h0 i) h, fun i _ j _ _ h => absurd (h0 i) h,
    fun h => absurd rfl h⟩, fun i hi => absurd hi (Nat.not_lt_zero i), Nat.zero_le _⟩, rfl⟩

/-- Five bytes written to the empty file. -/
theorem file_refines_bytes_empty : demand tinyFs emptyFile.din 1 ≤ tinyFs.freemap.count ∧
    ∃ io, sfsIoNolock tinyFs emptyFile (fun i => UInt8.ofNat i) 0 5 true = .ok io ∧ io.ret = 0 ∧
      io.sin.din.size = 5 := by
  have hfree : demand tinyFs emptyFile.din (blocksTo 0 5) ≤ tinyFs.freemap.count := by decide
  refine ⟨hfree, ?_⟩
  obtain ⟨io, heq, hret, -, hsize, -⟩ := (file_refines_bytes 0 5 fsOk_tinyFs.regularFile (Nat.le_refl _)
    (by decide) fun i => UInt8.ofNat i).1 hfree
  exact ⟨io, heq, hret, hsize⟩

end Ucore.Sfs
