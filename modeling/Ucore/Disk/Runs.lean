import Ucore.Disk.Model
import Ucore.Lib.Store
import Ucore.Lib.Transition

/-!
# Disk blocks do not alias

The size of the image is cut to 32 bits before it is counted in sectors, so that no mounted file system
has `2 ^ 20` blocks, and none of the 32-bit products of a block number wraps.  Hence a block is a range
of the image, the ranges are apart, and the image is a store of blocks for **`diskBlocks`**.
-/

namespace Ucore.Disk

open Vmm Fallible Store Transition

/-- The ranges of `m` bytes from `a` and of `n` bytes from `b` have no byte in common. -/
def Apart (a : Uintptr) (m : ℕ) (b : Uintptr) (n : ℕ) : Prop :=
  ∀ i < m, ∀ j < n, a + BitVec.ofNat 64 i ≠ b + BitVec.ofNat 64 j

/-- The disk of a mounted file system: the image from `start` up to `stop`, `disk0_buffer` and the
number of blocks of the super block, which `sfs_do_mount` compares with `d_blocks`. -/
structure Mounted where
  start : Uintptr
  stop : Uintptr
  buffer : Uintptr
  blocks : BitVec 32
  ordered : start.toNat ≤ stop.toNat
  mounted : blocks.setWidth 64 ≤ (disk0DeviceInit (ramdiskInit start stop)).dBlocks
  apart : Apart buffer 16384 start (stop.toNat - start.toNat)

variable {d : Mounted} {mem mem' : Memory} {buf : Uintptr} {b blkno : BitVec 32} {write check : Bool}

def Mounted.dev (d : Mounted) : IdeDevice := ramdiskInit d.start d.stop

/-- The size of the image. -/
def Mounted.size (d : Mounted) : ℕ := d.stop.toNat - d.start.toNat

/-- `sfs_rwblock_nolock` on this disk. -/
def Mounted.rwblock (d : Mounted) (mem : Memory) (buf : Uintptr) (blkno : BitVec 32) (write check : Bool) :
    Except Panic (ℤ × Memory) :=
  sfsRwblockNolock d.dev (disk0DeviceInit d.dev) d.buffer d.blocks mem buf blkno write check

/-- The address of a byte of the image. -/
def Mounted.byte (d : Mounted) (n : ℕ) : Uintptr := d.start + BitVec.ofNat 64 n

/-- Where a block begins. -/
def Mounted.place (d : Mounted) (blkno : BitVec 32) : Uintptr := d.byte (4096 * blkno.toNat)

/-! ## The bounds -/

theorem Mounted.toNat_sub (d : Mounted) : (d.stop - d.start).toNat = d.size :=
  BitVec.toNat_sub_of_le (BitVec.le_def.mpr d.ordered)

theorem toNat_div_512 (n : BitVec 64) : (n.setWidth 32 / 512).toNat = n.toNat % 2 ^ 32 / 512 := by
  rw [BitVec.toNat_udiv, BitVec.toNat_setWidth]
  rfl

/-- A mounted disk has an image, and its blocks are within the size in sectors. -/
theorem Mounted.sectors (d : Mounted) (h : blkno < d.blocks) :
    d.dev.valid = true ∧ d.dev.iobase = d.start ∧
      d.dev.size.toNat = d.size % 2 ^ 32 / 512 ∧ 8 * blkno.toNat + 8 ≤ d.dev.size.toNat := by
  have hmounted := BitVec.le_def.mp d.mounted
  have hlt := BitVec.lt_def.mp h
  have hblocks : (disk0DeviceInit d.dev).dBlocks.toNat = d.dev.size.toNat / 8 := by
    rw [disk0DeviceInit, BitVec.toNat_udiv, BitVec.toNat_setWidth]
    have hsize := d.dev.size.isLt
    rw [Nat.mod_eq_of_lt (by omega)]
    rfl
  have hwide : (d.blocks.setWidth 64).toNat = d.blocks.toNat := by
    rw [BitVec.toNat_setWidth]
    have hlt := d.blocks.isLt
    exact Nat.mod_eq_of_lt (by omega)
  rw [← Mounted.dev, hblocks, hwide] at hmounted
  have hle : 8 * blkno.toNat + 8 ≤ d.dev.size.toNat := by omega
  rw [Mounted.dev, ramdiskInit] at hle ⊢
  split at hle
  case isTrue => exact absurd hle (by simp)
  case isFalse hne =>
    rw [if_neg hne]
    exact ⟨rfl, rfl, by rw [toNat_div_512, d.toNat_sub], hle⟩

/-- **No wrap-around**: block numbers are below `2 ^ 20`, and their bytes in the image. -/
theorem Mounted.bounds (d : Mounted) (h : blkno < d.blocks) :
    blkno.toNat < 2 ^ 20 ∧ 4096 * blkno.toNat + 4096 ≤ d.size ∧ d.start.toNat + d.size < 2 ^ 64 := by
  obtain ⟨-, -, hsize, hle⟩ := d.sectors h
  have hstop := d.stop.isLt
  have hordered := d.ordered
  have hmod := Nat.mod_le d.size (2 ^ 32)
  rw [Mounted.size] at *
  omega

/-! ## One block through the four files -/

/-- What a transfer of the sectors of a block leaves. -/
def moved (write : Bool) (mem : Memory) (place buf : Uintptr) : Memory :=
  if write then memcpy mem place buf 4096 else memcpy mem buf place 4096

/-- The clipping of `ramdisk_read` does nothing inside the disk. -/
theorem ramdiskMove_eq (write : Bool) (dev : IdeDevice) (mem : Memory) (buf secno : Uintptr)
    (h : secno.toNat + 8 ≤ dev.size.toNat) : ramdiskMove write dev mem secno buf 8 =
      (0, moved write mem (dev.iobase + secno * SECTSIZE) buf) := by
  have hsize := dev.size.isLt
  have hwide : (dev.size.setWidth 64).toNat = dev.size.toNat := by
    rw [BitVec.toNat_setWidth]
    exact Nat.mod_eq_of_lt (by omega)
  have hleft : (dev.size.setWidth 64 - secno).toNat = dev.size.toNat - secno.toNat := by
    rw [BitVec.toNat_sub_of_le (BitVec.le_def.mpr (by omega)), hwide]
  have hclip : (if (8 : Uintptr) < dev.size.setWidth 64 - secno then (8 : Uintptr)
      else dev.size.setWidth 64 - secno) = 8 := by
    by_cases hlt : (8 : Uintptr) < dev.size.setWidth 64 - secno
    · exact if_pos hlt
    · rw [if_neg hlt]
      have hge : ¬ 8 < (dev.size.setWidth 64 - secno).toNat := hlt
      refine BitVec.eq_of_toNat_eq ?_
      rw [hleft] at hge ⊢
      show _ = 8
      omega
  have hlen : ((8 : Uintptr) * SECTSIZE).toNat = 4096 := by decide
  rw [ramdiskMove, hclip, if_neg (by decide), hlen, moved]
  cases write with
  | true => rw [if_pos rfl, if_pos rfl]
  | false => rw [if_neg Bool.false_ne_true, if_neg Bool.false_ne_true]

theorem ideSecs_eq (write : Bool) {dev : IdeDevice} (mem : Memory) (buf : Uintptr) {secno : BitVec 32}
    (hvalid : dev.valid = true) (h : secno.toNat + 8 ≤ dev.size.toNat)
    (hsize : dev.size.toNat ≤ 2 ^ 23) : ideSecs write dev mem secno buf 8 =
      .ok (0, moved write mem (dev.iobase + secno.setWidth 64 * SECTSIZE) buf) := by
  have hwide : (secno.setWidth 64).toNat = secno.toNat := by
    rw [BitVec.toNat_setWidth]
    exact Nat.mod_eq_of_lt (by omega)
  have hmove := fun w => ramdiskMove_eq w dev mem buf (secno.setWidth 64) (by omega)
  have hin : secno < MAX_DISK_NSECS ∧ secno.setWidth 64 + 8 ≤ MAX_DISK_NSECS.setWidth 64 := by
    have hmax : MAX_DISK_NSECS.toNat = 0x10000000 := rfl
    have hmax' : (MAX_DISK_NSECS.setWidth 64).toNat = 0x10000000 := rfl
    have height : (8 : Uintptr).toNat = 8 := rfl
    constructor
    · rw [BitVec.lt_def]
      omega
    · rw [BitVec.le_def, BitVec.toNat_add]
      omega
  rw [ideSecs, require_pos ⟨by decide, hvalid⟩, bind_ok, require_pos hin, bind_ok]
  cases write
  · exact congrArg Except.ok (hmove false)
  · exact congrArg Except.ok (hmove true)

theorem disk0Blks_eq (write : Bool) {dev : IdeDevice} (mem : Memory) (buffer : Uintptr)
    (hvalid : dev.valid = true) (h : 8 * blkno.toNat + 8 ≤ dev.size.toNat)
    (hsize : dev.size.toNat ≤ 2 ^ 23) : disk0Blks write dev buffer mem blkno 1 =
      .ok (moved write mem (dev.iobase + BitVec.ofNat 64 (4096 * blkno.toNat)) buffer) := by
  have hsect : (blkno * DISK0_BLK_NSECT).toNat = 8 * blkno.toNat := by
    have height : DISK0_BLK_NSECT.toNat = 8 := rfl
    rw [BitVec.toNat_mul, height, Nat.mul_comm]
    exact Nat.mod_eq_of_lt (by omega)
  have hplace : (blkno * DISK0_BLK_NSECT).setWidth 64 * SECTSIZE =
      BitVec.ofNat 64 (4096 * blkno.toNat) := by
    refine BitVec.eq_of_toNat_eq ?_
    have hsector : SECTSIZE.toNat = 512 := rfl
    rw [BitVec.toNat_mul, BitVec.toNat_setWidth, hsect, hsector, BitVec.toNat_ofNat]
    omega
  have hsecs := ideSecs_eq write mem buffer hvalid (hsect.symm ▸ h) hsize
  have hone : ((1 : BitVec 32) * DISK0_BLK_NSECT).setWidth 64 = 8 := by decide
  rw [disk0Blks, hone, hsecs, hplace, bind_ok]
  rfl

/-- One block goes over at once, in either direction. -/
theorem iobufMove_eq (mem : Memory) (buf data : Uintptr) {len : Uintptr} (offset : BitVec 64)
    (m2b : Bool) (hlen : 4096 ≤ len) : iobufMove mem (iobufInit buf 4096 offset) data len m2b =
      .ok (if m2b then memmove mem buf data 4096 else memmove mem data buf 4096,
        ⟨buf + 4096, offset + 4096, 4096, 4096 - 4096⟩, 4096) := by
  have halen : (if (iobufInit buf 4096 offset).ioResid > len then len
      else (iobufInit buf 4096 offset).ioResid) = 4096 := if_neg (BitVec.not_lt.mpr hlen)
  have hnat : (4096 : Uintptr).toNat = 4096 := rfl
  have hskip : iobufSkip (iobufInit buf 4096 offset) 4096 =
      .ok ⟨buf + 4096, offset + 4096, 4096, 4096 - 4096⟩ := by
    have hresid : (4096 : Uintptr) ≤ (iobufInit buf 4096 offset).ioResid := BitVec.le_refl 4096
    rw [iobufSkip, require_pos hresid, bind_ok]
    rfl
  rw [iobufMove, halen, if_pos (by decide), hnat]
  dsimp only
  rw [hskip]
  rfl

/-- What `sfs_rwblock_nolock` leaves, with its way over `disk0_buffer`. -/
def blockMoved (write : Bool) (mem : Memory) (place buffer buf : Uintptr) : Memory :=
  if write then moved true (memmove mem buffer buf 4096) place buffer
  else memmove (moved false mem place buffer) buf buffer 4096

theorem disk0Loop_eq (write : Bool) {dev : IdeDevice} (mem : Memory) (buffer buf : Uintptr)
    (offset : BitVec 64) (hvalid : dev.valid = true) (h : 8 * blkno.toNat + 8 ≤ dev.size.toNat)
    (hsize : dev.size.toNat ≤ 2 ^ 23) :
    disk0Loop write dev buffer mem (iobufInit buf 4096 offset) blkno 4096 =
      .ok (blockMoved write mem (dev.iobase + BitVec.ofNat 64 (4096 * blkno.toNat)) buffer buf) := by
  have hone : ((4096 : Uintptr) / DISK0_BLKSIZE).setWidth 32 = (1 : BitVec 32) := by decide
  have hlen : readLen 4096 = 4096 := by decide
  have hdone : ∀ mem iob blkno, disk0Loop write dev buffer mem iob blkno (4096 - 4096) = .ok mem := by
    intro mem iob blkno
    rw [disk0Loop, dif_pos (by decide)]
  rw [disk0Loop, dif_neg (by decide)]
  cases write with
  | true =>
    rw [if_pos rfl, iobufMove_eq mem buf buffer offset false (by decide), blockMoved, if_pos rfl]
    dsimp only
    rw [dif_pos (by decide), hone, disk0Blks_eq true _ buffer hvalid h hsize]
    exact hdone ..
  | false =>
    rw [if_neg (by decide), blockMoved, if_neg (by decide)]
    dsimp only
    rw [hlen, hone, disk0Blks_eq false _ buffer hvalid h hsize]
    dsimp only
    rw [iobufMove_eq _ buf buffer offset true (by decide)]
    dsimp only
    rw [dif_pos (by decide)]
    exact hdone ..

theorem disk0Io_eq (write : Bool) {dev : IdeDevice} {device : Device} (mem : Memory)
    (buffer buf : Uintptr) {offset : BitVec 64}
    (hdiv : (offset.sdiv DISK0_BLKSIZE).setWidth 32 = blkno) (hrem : offset.srem DISK0_BLKSIZE = 0)
    (hend : (blkno + 1).setWidth 64 ≤ device.dBlocks) (hvalid : dev.valid = true)
    (h : 8 * blkno.toNat + 8 ≤ dev.size.toNat) (hsize : dev.size.toNat ≤ 2 ^ 23) :
    disk0Io dev device buffer mem (iobufInit buf 4096 offset) write =
      .ok (0, blockMoved write mem (dev.iobase + BitVec.ofNat 64 (4096 * blkno.toNat)) buffer buf) := by
  have hone : ((4096 : Uintptr) / DISK0_BLKSIZE).setWidth 32 = (1 : BitVec 32) := by decide
  have hnone : ¬ ((1 : BitVec 32) = 0) := by decide
  have haligned : ¬ (offset.srem DISK0_BLKSIZE ≠ 0 ∨ (4096 : Uintptr) % DISK0_BLKSIZE ≠ 0) :=
    not_or.mpr ⟨not_not.mpr hrem, by decide⟩
  have hloop := disk0Loop_eq write mem buffer buf offset hvalid h hsize
  rw [iobufInit] at hloop ⊢
  simp only [disk0Io]
  rw [if_neg haligned, hdiv, hone, if_neg (BitVec.not_lt.mpr hend), if_neg hnone, hloop, bind_ok]
  rfl

/-- **`sfs_rwblock_nolock`** moves the bytes of the block. -/
theorem Mounted.rwblock_eq (d : Mounted) (mem : Memory) (buf : Uintptr) (write : Bool)
    (hlt : blkno < d.blocks) (hcheck : blkno ≠ 0 ∨ check = false) :
    d.rwblock mem buf blkno write check =
      .ok (0, blockMoved write mem (d.place blkno) d.buffer buf) := by
  obtain ⟨hvalid, hbase, hsize, hsect⟩ := d.sectors hlt
  have hbig := (d.bounds hlt).1
  have hoffset : ((blkno * SFS_BLKSIZE).setWidth 64).toNat = 4096 * blkno.toNat := by
    have hblk : SFS_BLKSIZE.toNat = 4096 := rfl
    rw [BitVec.toNat_setWidth, BitVec.toNat_mul, hblk]
    omega
  -- the sign of the `off_t` does not matter
  have hpos : ((blkno * SFS_BLKSIZE).setWidth 64).msb = false := by
    rw [BitVec.msb_eq_false_iff_two_mul_lt, hoffset]
    omega
  have hpage : DISK0_BLKSIZE.toNat = 4096 := rfl
  have hdiv : (((blkno * SFS_BLKSIZE).setWidth 64).sdiv DISK0_BLKSIZE).setWidth 32 = blkno := by
    refine BitVec.eq_of_toNat_eq ?_
    rw [BitVec.sdiv_eq, hpos, show DISK0_BLKSIZE.msb = false from rfl]
    dsimp only
    rw [BitVec.toNat_setWidth, BitVec.udiv_eq, BitVec.toNat_udiv, hoffset, hpage]
    omega
  have hrem : ((blkno * SFS_BLKSIZE).setWidth 64).srem DISK0_BLKSIZE = 0 := by
    refine BitVec.eq_of_toNat_eq ?_
    rw [BitVec.srem_eq, hpos, show DISK0_BLKSIZE.msb = false from rfl]
    dsimp only
    rw [BitVec.toNat_umod, hoffset, hpage]
    exact Nat.mul_mod_right 4096 _
  have hend : (blkno + 1).setWidth 64 ≤ (disk0DeviceInit d.dev).dBlocks := by
    refine BitVec.le_def.mpr (le_trans ?_ (BitVec.le_def.mp d.mounted))
    have hnat := BitVec.lt_def.mp hlt
    have hone : (1 : BitVec 32).toNat = 1 := rfl
    rw [BitVec.toNat_setWidth, BitVec.toNat_setWidth, BitVec.toNat_add, hone]
    omega
  have hwide : SFS_BLKSIZE.setWidth 64 = (4096 : Uintptr) := by decide
  rw [Mounted.rwblock, sfsRwblockNolock, require_pos ⟨hcheck, hlt⟩, bind_ok, hwide,
    disk0Io_eq write mem d.buffer buf hdiv hrem hend hvalid hsect (by omega), hbase, Mounted.place,
    Mounted.byte]

/-! ## The image as a store of blocks -/

theorem Mounted.toNat_byte (d : Mounted) {n : ℕ} (h : n < d.size) :
    (d.byte n).toNat = d.start.toNat + n := by
  have hstop := d.stop.isLt
  have hordered := d.ordered
  rw [Mounted.size] at h
  rw [Mounted.byte, BitVec.toNat_add, BitVec.toNat_ofNat]
  omega

theorem Mounted.place_add (d : Mounted) (blkno : BitVec 32) (i : ℕ) :
    d.place blkno + BitVec.ofNat 64 i = d.byte (4096 * blkno.toNat + i) := by
  rw [Mounted.place, Mounted.byte, Mounted.byte, add_ofNat]

theorem Mounted.byte_lt (d : Mounted) (h : blkno < d.blocks) {i : ℕ} (hi : i < 4096) :
    4096 * blkno.toNat + i < d.size := by
  have hle := (d.bounds h).2.1
  omega

/-- `disk0_buffer` is apart from the image. -/
theorem Mounted.place_ne_buffer (d : Mounted) (h : blkno < d.blocks) {i j : ℕ} (hi : i < 4096)
    (hj : j < 4096) : d.place blkno + BitVec.ofNat 64 i ≠ d.buffer + BitVec.ofNat 64 j := by
  rw [d.place_add]
  exact (d.apart j (by omega) _ (d.byte_lt h hi)).symm

/-- A read: the bytes of the block are in `buf`, and nothing else changes outside `disk0_buffer`. -/
def Mounted.ReadsBlock (d : Mounted) (mem : Memory) (buf : Uintptr) (blkno : BitVec 32)
    (mem' : Memory) : Prop :=
  (∀ i < 4096, mem' (buf + BitVec.ofNat 64 i) = mem (d.byte (4096 * blkno.toNat + i))) ∧
    ∀ a, (∀ i < 4096, a ≠ buf + BitVec.ofNat 64 i) → (∀ i < 4096, a ≠ d.buffer + BitVec.ofNat 64 i) →
      mem' a = mem a

/-- A write: the other way. -/
def Mounted.WritesBlock (d : Mounted) (mem : Memory) (buf : Uintptr) (blkno : BitVec 32)
    (mem' : Memory) : Prop :=
  (∀ i < 4096, mem' (d.byte (4096 * blkno.toNat + i)) = mem (buf + BitVec.ofNat 64 i)) ∧
    ∀ a, (∀ i < 4096, a ≠ d.byte (4096 * blkno.toNat + i)) →
      (∀ i < 4096, a ≠ d.buffer + BitVec.ofNat 64 i) → mem' a = mem a

theorem Mounted.reads (d : Mounted) (mem : Memory) (buf : Uintptr) (hlt : blkno < d.blocks)
    (hcheck : blkno ≠ 0 ∨ check = false) : ∃ mem', d.rwblock mem buf blkno false check = .ok (0, mem') ∧
      d.ReadsBlock mem buf blkno mem' := by
  refine ⟨_, d.rwblock_eq mem buf false hlt hcheck, ?_, ?_⟩
  · intro i hi
    rw [blockMoved, if_neg (by decide), memmove_at _ _ _ hi (by omega), moved, if_neg (by decide),
      memcpy_at mem hi (by omega) fun k hk j hj => (d.place_ne_buffer hlt hk hj), d.place_add]
  · intro a hbuf hbuffer
    rw [blockMoved, if_neg (by decide), memmove_frame _ hbuf, moved, if_neg (by decide), memcpy_frame _ hbuffer]

theorem Mounted.writes (d : Mounted) (mem : Memory) (buf : Uintptr) (hlt : blkno < d.blocks)
    (hcheck : blkno ≠ 0 ∨ check = false) : ∃ mem', d.rwblock mem buf blkno true check = .ok (0, mem') ∧
      d.WritesBlock mem buf blkno mem' := by
  refine ⟨_, d.rwblock_eq mem buf true hlt hcheck, ?_, ?_⟩
  · intro i hi
    rw [← d.place_add, blockMoved, if_pos rfl, moved, if_pos rfl,
      memcpy_at _ hi (by omega) fun k hk j hj => (d.place_ne_buffer hlt hj hk).symm,
      memmove_at _ _ _ hi (by omega)]
  · intro a hplace hbuffer
    have hplace' : ∀ i < 4096, a ≠ d.place blkno + BitVec.ofNat 64 i := by
      intro i hi
      rw [d.place_add]
      exact hplace i hi
    rw [blockMoved, if_pos rfl, moved, if_pos rfl, memcpy_frame _ hplace', memmove_frame _ hbuffer]

/-- **Different blocks are apart.** -/
theorem Mounted.byte_ne (d : Mounted) (hb : b < d.blocks) (hlt : blkno < d.blocks) (hne : b ≠ blkno)
    {i j : ℕ} (hi : i < 4096) (hj : j < 4096) :
    d.byte (4096 * b.toNat + i) ≠ d.byte (4096 * blkno.toNat + j) := by
  intro heq
  have hnat := congrArg BitVec.toNat heq
  rw [d.toNat_byte (d.byte_lt hb hi), d.toNat_byte (d.byte_lt hlt hj)] at hnat
  exact hne (BitVec.eq_of_toNat_eq (by omega))

abbrev Block := Fin 4096 → UInt8

/-- The block numbers of the file system. -/
abbrev Mounted.Blkno (d : Mounted) := { b : BitVec 32 // b < d.blocks }

/-- The bytes from `a`. -/
def blockFrom (mem : Memory) (a : Uintptr) : Block := fun i => mem (a + BitVec.ofNat 64 i)

/-- What the image stores. -/
def Mounted.stored (d : Mounted) (mem : Memory) (b : d.Blkno) : Block := blockFrom mem (d.place b)

/-- The image is the same. -/
def Mounted.SameImage (d : Mounted) (mem mem' : Memory) : Prop :=
  ∀ n < d.size, mem' (d.byte n) = mem (d.byte n)

/-- One transfer, with a buffer outside the image.  Before it the kernel has done anything else that
leaves the image alone. -/
inductive Mounted.Step (d : Mounted) (mem : Memory) : Access d.Blkno Block → Memory → Prop
  | read {mem₁ mem' : Memory} {buf : Uintptr} (b : d.Blkno) {check : Bool}
      (hsame : d.SameImage mem mem₁) (hbuf : Apart buf 4096 d.start d.size)
      (hcheck : b.1 ≠ 0 ∨ check = false) (hrun : d.rwblock mem₁ buf b false check = .ok (0, mem')) :
      Step d mem (.read b (blockFrom mem' buf)) mem'
  | write {mem₁ mem' : Memory} {buf : Uintptr} (b : d.Blkno) {check : Bool}
      (hsame : d.SameImage mem mem₁) (hbuf : Apart buf 4096 d.start d.size)
      (hcheck : b.1 ≠ 0 ∨ check = false) (hrun : d.rwblock mem₁ buf b true check = .ok (0, mem')) :
      Step d mem (.write b (blockFrom mem₁ buf)) mem'

variable {a : Access d.Blkno Block} {es : List (Access d.Blkno Block)}

theorem Mounted.SameImage.stored_eq (h : d.SameImage mem mem') : d.stored mem' = d.stored mem := by
  funext b i
  rw [Mounted.stored, Mounted.stored, blockFrom, blockFrom, d.place_add]
  exact h _ (d.byte_lt b.2 i.2)

/-- Memory outside `disk0_buffer` and a buffer apart from the image. -/
theorem Mounted.sameImage_of_frame (hbuf : Apart buf 4096 d.start d.size)
    (h : ∀ a, (∀ i < 4096, a ≠ buf + BitVec.ofNat 64 i) →
      (∀ i < 4096, a ≠ d.buffer + BitVec.ofNat 64 i) → mem' a = mem a) : d.SameImage mem mem' := by
  intro n hn
  refine h _ (fun i hi heq => hbuf i hi n hn heq.symm) ?_
  intro i hi heq
  exact d.apart i (by omega) n hn heq.symm

/-- **A transfer is an access to the store.** -/
theorem Mounted.Step.access (h : d.Step mem a mem') : d.stored mem' = a.apply (d.stored mem) ∧
    ∀ b v, a = .read b v → v = d.stored mem b := by
  cases h with
  | @read mem₁ _ buf b check hsame hbuf hcheck hrun =>
    obtain ⟨mem₂, hrun₂, hread, hframe⟩ := d.reads mem₁ buf b.2 hcheck
    rw [hrun₂] at hrun
    cases hrun
    have hstored : d.stored mem' = d.stored mem :=
      (d.sameImage_of_frame hbuf hframe).stored_eq.trans hsame.stored_eq
    refine ⟨hstored, ?_⟩
    intro b' v heq
    cases heq
    funext i
    rw [← hsame.stored_eq, blockFrom, hread i i.2, Mounted.stored, blockFrom, d.place_add]
  | @write mem₁ _ buf b check hsame hbuf hcheck hrun =>
    obtain ⟨mem₂, hrun₂, hwrite, hframe⟩ := d.writes mem₁ buf b.2 hcheck
    rw [hrun₂] at hrun
    cases hrun
    refine ⟨?_, nofun⟩
    funext c i
    rw [Access.apply, ← hsame.stored_eq, Mounted.stored, blockFrom, d.place_add]
    by_cases hc : c = b
    · rw [hc, Function.update_self]
      exact hwrite i i.2
    · rw [Function.update_of_ne hc, Mounted.stored, blockFrom, d.place_add]
      have hne : c.1 ≠ b.1 := fun h => hc (Subtype.ext h)
      refine hframe _ (fun j hj => d.byte_ne c.2 b.2 hne i.2 hj) ?_
      intro j hj heq
      exact d.apart j (by omega) _ (d.byte_lt c.2 i.2) heq.symm

/-- The image after a history. -/
theorem Mounted.stored_after (h : Trace d.Step mem es mem') : d.stored mem' = after (d.stored mem) es :=
  (h.foldl (P := fun _ => True) (v := d.stored) (f := Access.apply)
    (fun _ _ _ _ hstep => ⟨trivial, hstep.access.1⟩) trivial).2

/-- A read gives what the history left. -/
theorem Mounted.read_after {b : d.Blkno} {v : Block} (h : Trace d.Step mem (es ++ [.read b v]) mem') :
    v = after (d.stored mem) es b := by
  obtain ⟨mid, hes, hstep⟩ := h.snoc_inv
  rw [hstep.access.2 b v rfl, Mounted.stored_after hes]

/-- **Disk block addressing does not alias.**  A transfer touches the bytes of its block and no others
of the image, different blocks are apart, and a read returns what the last write stored. -/
theorem diskBlocks (d : Mounted) :
    (∀ mem buf blkno check, blkno < d.blocks → (blkno ≠ 0 ∨ check = false) →
      (∃ mem', d.rwblock mem buf blkno false check = .ok (0, mem') ∧ d.ReadsBlock mem buf blkno mem') ∧
      ∃ mem', d.rwblock mem buf blkno true check = .ok (0, mem') ∧ d.WritesBlock mem buf blkno mem') ∧
    (∀ blkno < d.blocks, ∀ i < 4096, 4096 * blkno.toNat + i < d.size ∧
      (d.byte (4096 * blkno.toNat + i)).toNat = d.start.toNat + (4096 * blkno.toNat + i)) ∧
    (∀ b < d.blocks, ∀ c < d.blocks, b ≠ c → ∀ i < 4096, ∀ j < 4096,
      d.byte (4096 * b.toNat + i) ≠ d.byte (4096 * c.toNat + j)) ∧
    ∀ mem es b v mem', Trace d.Step mem (es ++ [.read b v]) mem' →
      ((∀ w, .write b w ∉ es) → v = d.stored mem b) ∧
      ∀ fs w gs, es = fs ++ .write b w :: gs → (∀ u, .write b u ∉ gs) → v = w := by
  refine ⟨?_, ?_, ?_, ?_⟩
  · intro mem buf blkno check hlt hcheck
    exact ⟨d.reads mem buf hlt hcheck, d.writes mem buf hlt hcheck⟩
  · intro blkno hlt i hi
    exact ⟨d.byte_lt hlt hi, d.toNat_byte (d.byte_lt hlt hi)⟩
  · intro b hb c hc hne i hi j hj
    exact d.byte_ne hb hc hne hi hj
  · intro mem es b v mem' hrun
    have hv := Mounted.read_after hrun
    constructor
    · intro hnone
      rw [hv]
      exact after_of_not_written hnone
    · rintro fs w gs rfl hlast
      rw [hv]
      exact after_last_write hlast

/-- Buffers behind the image of `twoBlocks`. -/
theorem apart_behind (buf : Uintptr) (hlo : 0x12000 ≤ buf.toNat) (hhi : buf.toNat < 0x100000) {n : ℕ}
    (hn : n ≤ 16384) : Apart buf n 0x10000 0x2000 := by
  intro i hi j hj heq
  have hnat := congrArg BitVec.toNat heq
  have hstart : (0x10000 : Uintptr).toNat = 0x10000 := rfl
  rw [BitVec.toNat_add, BitVec.toNat_add, BitVec.toNat_ofNat, BitVec.toNat_ofNat, hstart] at hnat
  omega

/-- An image of two blocks. -/
def twoBlocks : Mounted where
  start := 0x10000
  stop := 0x12000
  buffer := 0x20000
  blocks := 2
  ordered := by decide
  mounted := by decide
  apart := apart_behind 0x20000 (by decide) (by decide) le_rfl

/-- The second block is written and read. -/
theorem diskBlocks_two : ∃ mem mem₁ mem₂, mem (0x30000 : Uintptr) = 42 ∧
    twoBlocks.rwblock mem 0x30000 1 true true = .ok (0, mem₁) ∧
    twoBlocks.rwblock mem₁ 0x40000 1 false true = .ok (0, mem₂) ∧
    blockFrom mem₂ 0x40000 = blockFrom mem 0x30000 := by
  let mem : Memory := fun a => if a = 0x30000 then 42 else 7
  obtain ⟨haccess, -, -, hruns⟩ := diskBlocks twoBlocks
  have hlt : (1 : BitVec 32) < twoBlocks.blocks := show (1 : BitVec 32) < 2 by decide
  have hne : (1 : BitVec 32) ≠ 0 := by decide
  obtain ⟨mem₁, hwrite, -⟩ := (haccess mem 0x30000 1 true hlt (.inl hne)).2
  obtain ⟨mem₂, hread, -⟩ := (haccess mem₁ 0x40000 1 true hlt (.inl hne)).1
  have hw : twoBlocks.Step mem (.write ⟨1, hlt⟩ (blockFrom mem 0x30000)) mem₁ :=
    .write ⟨1, hlt⟩ (fun _ _ => rfl) (apart_behind 0x30000 (by decide) (by decide) (by decide)) (.inl hne) hwrite
  have hr : twoBlocks.Step mem₁ (.read ⟨1, hlt⟩ (blockFrom mem₂ 0x40000)) mem₂ :=
    .read ⟨1, hlt⟩ (fun _ _ => rfl) (apart_behind 0x40000 (by decide) (by decide) (by decide)) (.inl hne) hread
  have hrun : Trace twoBlocks.Step mem ([.write ⟨1, hlt⟩ (blockFrom mem 0x30000)] ++
      [.read ⟨1, hlt⟩ (blockFrom mem₂ 0x40000)]) mem₂ := .snoc (.snoc .nil hw) hr
  have hsame := (hruns mem _ _ _ mem₂ hrun).2 [] _ [] rfl fun _ h => absurd h List.not_mem_nil
  exact ⟨mem, mem₁, mem₂, if_pos rfl, hwrite, hread, hsame⟩

end Ucore.Disk
