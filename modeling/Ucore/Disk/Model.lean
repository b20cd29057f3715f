import Ucore.Vmm.CopyString

/-!
# Disk blocks (`sfs_io.c`, `dev_disk0.c`, `ide.c`, `ramdisk.c` of lab8)

A block number goes down through four files to a place in the image of the disk, which is linked into
the kernel: `sfs_rwblock_nolock` makes a byte offset of it, `disk0_io` a block number again,
`disk0_read_blks_nolock` sectors and `ramdisk_read` an address.  Each file has its own widths.
-/

namespace Ucore.Disk

open Vmm Fallible

def SECTSIZE : Uintptr := 512

def MAX_NSECS : Uintptr := 128

def MAX_DISK_NSECS : BitVec 32 := 0x10000000

def DISK0_BLKSIZE : Uintptr := PGSIZE

def DISK0_BUFSIZE : Uintptr := 4 * DISK0_BLKSIZE

def DISK0_BLK_NSECT : BitVec 32 := 8

def SFS_BLKSIZE : BitVec 32 := 4096

inductive Panic
  | assertion
  /-- the `panic` of `disk0_read_blks_nolock` and `disk0_write_blks_nolock` -/
  | disk0 (ret : ℤ)

/-- `struct ide_device` -/
structure IdeDevice where
  valid : Bool
  /-- in sectors -/
  size : BitVec 32
  iobase : Uintptr

/-- `ramdisk_init`, for an image from `start` up to `stop`. -/
def ramdiskInit (start stop : Uintptr) : IdeDevice :=
  if start = stop then ⟨false, 0, 0⟩ else ⟨true, (stop - start).setWidth 32 / 512, start⟩

/-- `ramdisk_read` and `ramdisk_write`. -/
def ramdiskMove (write : Bool) (dev : IdeDevice) (mem : Memory) (secno buf nsecs : Uintptr) :
    ℤ × Memory :=
  let left := dev.size.setWidth 64 - secno
  let nsecs := if nsecs < left then nsecs else left
  let place := dev.iobase + secno * SECTSIZE
  if nsecs < 0 then (-1, mem)
  else if write then (0, memcpy mem place buf (nsecs * SECTSIZE).toNat)
  else (0, memcpy mem buf place (nsecs * SECTSIZE).toNat)

def ramdiskRead : IdeDevice → Memory → Uintptr → Uintptr → Uintptr → ℤ × Memory := ramdiskMove false

def ramdiskWrite : IdeDevice → Memory → Uintptr → Uintptr → Uintptr → ℤ × Memory := ramdiskMove true

/-- `ide_read_secs` and `ide_write_secs`. -/
def ideSecs (write : Bool) (dev : IdeDevice) (mem : Memory) (secno : BitVec 32) (buf nsecs : Uintptr) :
    Except Panic (ℤ × Memory) := do
  require (nsecs ≤ MAX_NSECS ∧ dev.valid = true) Panic.assertion
  require (secno < MAX_DISK_NSECS ∧ secno.setWidth 64 + nsecs ≤ MAX_DISK_NSECS.setWidth 64)
    Panic.assertion
  return (if write then ramdiskWrite else ramdiskRead) dev mem (secno.setWidth 64) buf nsecs

/-- `disk0_read_blks_nolock` and `disk0_write_blks_nolock`, with `disk0_buffer`. -/
def disk0Blks (write : Bool) (dev : IdeDevice) (buffer : Uintptr) (mem : Memory)
    (blkno nblks : BitVec 32) : Except Panic Memory := do
  let (ret, mem) ←
    ideSecs write dev mem (blkno * DISK0_BLK_NSECT) buffer ((nblks * DISK0_BLK_NSECT).setWidth 64)
  require (ret = 0) (Panic.disk0 ret)
  return mem

/-- `struct iobuf` -/
structure Iobuf where
  ioBase : Uintptr
  /-- an `off_t`, with a sign -/
  ioOffset : BitVec 64
  ioLen : Uintptr
  ioResid : Uintptr

/-- `iobuf_init` -/
def iobufInit (base len : Uintptr) (offset : BitVec 64) : Iobuf := ⟨base, offset, len, len⟩

/-- `iobuf_skip` -/
def iobufSkip (iob : Iobuf) (n : Uintptr) : Except Panic Iobuf := do
  require (n ≤ iob.ioResid) Panic.assertion
  return { iob with
    ioBase := iob.ioBase + n
    ioOffset := iob.ioOffset + n
    ioResid := iob.ioResid - n }

/-- `iobuf_move`, with the `copied` that its callers look at. -/
def iobufMove (mem : Memory) (iob : Iobuf) (data len : Uintptr) (m2b : Bool) :
    Except Panic (Memory × Iobuf × Uintptr) := do
  let alen := if iob.ioResid > len then len else iob.ioResid
  if 0 < alen then
    let mem :=
      if m2b then memmove mem iob.ioBase data alen.toNat else memmove mem data iob.ioBase alen.toNat
    let iob ← iobufSkip iob alen
    return (mem, iob, alen)
  else return (mem, iob, alen)

/-- `struct device`, as `disk0_device_init` fills it. -/
structure Device where
  dBlocks : Uintptr
  dBlocksize : Uintptr

def disk0DeviceInit (dev : IdeDevice) : Device :=
  ⟨dev.size.setWidth 64 / DISK0_BLK_NSECT.setWidth 64, DISK0_BLKSIZE⟩

theorem sub_lt_of_le {resid copied : Uintptr} (hne : copied ≠ 0) (hle : copied ≤ resid) :
    (resid - copied).toNat < resid.toNat := by
  have hpos : 0 < copied.toNat := Nat.pos_of_ne_zero fun h => hne (BitVec.eq_of_toNat_eq h)
  have hnat := BitVec.le_def.mp hle
  rw [BitVec.toNat_sub_of_le hle]
  omega

/-- A read takes as much as the buffer holds. -/
def readLen (resid : Uintptr) : Uintptr := if DISK0_BUFSIZE > resid then resid else DISK0_BUFSIZE

theorem readLen_ne_zero {resid : Uintptr} (h : resid ≠ 0) : readLen resid ≠ 0 := by
  rw [readLen]
  split
  · exact h
  · decide

theorem readLen_le (resid : Uintptr) : readLen resid ≤ resid := by
  rw [readLen]
  split
  case isTrue => exact BitVec.le_refl resid
  case isFalse hnot => exact BitVec.not_lt.mp hnot

/-- The loop of `disk0_io`. -/
def disk0Loop (write : Bool) (dev : IdeDevice) (buffer : Uintptr) (mem : Memory) (iob : Iobuf)
    (blkno : BitVec 32) (resid : Uintptr) : Except Panic Memory :=
  if _hresid : resid = 0 then .ok mem
  else if write then
    match iobufMove mem iob buffer DISK0_BUFSIZE false with
    | .error e => .error e
    | .ok (mem, iob, copied) =>
      if _hcopied : copied ≠ 0 ∧ copied ≤ resid ∧ copied % DISK0_BLKSIZE = 0 then
        let nblks := (copied / DISK0_BLKSIZE).setWidth 32
        match disk0Blks true dev buffer mem blkno nblks with
        | .error e => .error e
        | .ok mem => disk0Loop write dev buffer mem iob (blkno + nblks) (resid - copied)
      else .error .assertion
  else
    let nblks := (readLen resid / DISK0_BLKSIZE).setWidth 32
    match disk0Blks false dev buffer mem blkno nblks with
    | .error e => .error e
    | .ok mem =>
      match iobufMove mem iob buffer (readLen resid) true with
      | .error e => .error e
      | .ok (mem, iob, copied) =>
        if _hcopied : copied = readLen resid ∧ copied % DISK0_BLKSIZE = 0 then
          disk0Loop write dev buffer mem iob (blkno + nblks) (resid - copied)
        else .error .assertion
termination_by resid.toNat
decreasing_by
  · exact sub_lt_of_le _hcopied.1 _hcopied.2.1
  · rw [_hcopied.1]
    exact sub_lt_of_le (readLen_ne_zero _hresid) (readLen_le resid)

/-- `disk0_io` -/
def disk0Io (dev : IdeDevice) (device : Device) (buffer : Uintptr) (mem : Memory) (iob : Iobuf)
    (write : Bool) : Except Panic (ℤ × Memory) := do
  let offset := iob.ioOffset
  let resid := iob.ioResid
  let blkno := (offset.sdiv DISK0_BLKSIZE).setWidth 32
  let nblks := (resid / DISK0_BLKSIZE).setWidth 32
  if offset.srem DISK0_BLKSIZE ≠ 0 ∨ resid % DISK0_BLKSIZE ≠ 0 then return (-E_INVAL, mem)
  if (blkno + nblks).setWidth 64 > device.dBlocks then return (-E_INVAL, mem)
  if nblks = 0 then return (0, mem)
  let mem ← disk0Loop write dev buffer mem iob blkno resid
  return (0, mem)

/-- `sfs_rwblock_nolock`, for a super block with `blocks` blocks. -/
def sfsRwblockNolock (dev : IdeDevice) (device : Device) (buffer : Uintptr) (blocks : BitVec 32)
    (mem : Memory) (buf : Uintptr) (blkno : BitVec 32) (write check : Bool) :
    Except Panic (ℤ × Memory) := do
  require ((blkno ≠ 0 ∨ check = false) ∧ blkno < blocks) Panic.assertion
  disk0Io dev device buffer mem
    (iobufInit buf (SFS_BLKSIZE.setWidth 64) ((blkno * SFS_BLKSIZE).setWidth 64)) write

end Ucore.Disk
