import Ucore.Lib.Memory
import Ucore.Sfs.Bitmap

/-!
# Files of the simple file system (`lab8/kern/fs/sfs/sfs_inode.c`, `sfs_io.c`)

A file system is its super block and freemap in memory and the blocks of the device.  An inode maps
the blocks of a file to blocks of the device: twelve direct entries, and 1024 entries of four bytes
in the indirect block.  An entry 0 means that no block is mapped.

The device always succeeds, so an operation fails only where `bitmap_alloc` has no bit left.  The
value of an operation that returns an error code is `.error ret`, and the state after it is given in
either case.  A failed assertion is a `Panic`.  The locks, the buffer `sfs_buffer` and the links of
inodes in the tables of the file system are left out.
-/

namespace Ucore.Sfs

open Memory

def SFS_BLKSIZE : ℕ := 4096

def SFS_NDIRECT : ℕ := 12

/-- Entries in the indirect block. -/
def SFS_BLK_NENTRY : ℕ := 1024

def SFS_MAX_FILE_SIZE : ℤ := 1024 * 1024 * 128

def SFS_TYPE_FILE : ℕ := 1

def SFS_TYPE_DIR : ℕ := 2

/-- `struct sfs_fs` with the fields of `struct sfs_super`, and the device. -/
structure Fs where
  blocks : ℕ
  unusedBlocks : ℕ
  freemap : Bitmap
  superDirty : Bool
  disk : ℕ → Mem

/-- `struct sfs_disk_inode`. -/
structure DiskInode where
  size : ℕ
  type : ℕ
  blocks : ℕ
  direct : ℕ → ℕ
  indirect : ℕ

/-- `struct sfs_inode`. -/
structure Inode where
  din : DiskInode
  ino : ℕ
  dirty : Bool

/-- A mounted file system with its inodes in memory. -/
structure Image (ι : Type) where
  fs : Fs
  inode : ι → Inode

/-- Inode `j` and the file system have changed. -/
def Image.set {ι : Type} [DecidableEq ι] (s : Image ι) (j : ι) (fs : Fs) (sin : Inode) : Image ι :=
  ⟨fs, Function.update s.inode j sin⟩

/-- The value of an operation, or the error code that it returns. -/
abbrev Ret (α : Type) := Except ℤ α

/-! ### Blocks of the device -/

/-- The check of `sfs_rwblock_nolock` before it accesses block `blkno`. -/
def checkBlock (fs : Fs) (blkno : ℕ) : Except Panic Unit :=
  ensure (blkno ≠ 0 ∧ blkno < fs.blocks) .assertion

/-- `sfs_rblock` of one block. -/
def sfsRblock (fs : Fs) (blkno : ℕ) : Except Panic Mem := do
  checkBlock fs blkno
  .ok (fs.disk blkno)

/-- `sfs_wblock` of one block. -/
def sfsWblock (fs : Fs) (src : Mem) (blkno : ℕ) : Except Panic Fs := do
  checkBlock fs blkno
  .ok { fs with
    disk := Function.update fs.disk blkno (memcpy (fs.disk blkno) 0 src SFS_BLKSIZE) }

/-- `sfs_rbuf`: the `len` bytes from `offset` on. -/
def sfsRbuf (fs : Fs) (len blkno offset : ℕ) : Except Panic Mem := do
  ensure (offset < SFS_BLKSIZE ∧ offset + len ≤ SFS_BLKSIZE) .assertion
  checkBlock fs blkno
  .ok fun i => fs.disk blkno (offset + i)

/-- `sfs_wbuf`. -/
def sfsWbuf (fs : Fs) (src : Mem) (len blkno offset : ℕ) : Except Panic Fs := do
  ensure (offset < SFS_BLKSIZE ∧ offset + len ≤ SFS_BLKSIZE) .assertion
  checkBlock fs blkno
  .ok { fs with
    disk := Function.update fs.disk blkno (memcpy (fs.disk blkno) offset src len) }

/-- `sfs_clear_block` of one block. -/
def sfsClearBlock (fs : Fs) (blkno : ℕ) : Except Panic Fs := do
  checkBlock fs blkno
  .ok { fs with disk := Function.update fs.disk blkno (memset (fs.disk blkno) 0 0 SFS_BLKSIZE) }

/-! ### Allocation -/

/-- `sfs_block_inuse`. -/
def sfsBlockInuse (fs : Fs) (ino : ℕ) : Except Panic Bool :=
  if ino ≠ 0 ∧ ino < fs.blocks then do
    let free ← bitmapTest fs.freemap ino
    .ok (!free)
  else .error .blockInuse

/-- `assert(sfs_block_inuse(sfs, ino))`. -/
def assertInuse (fs : Fs) (ino : ℕ) : Except Panic Unit := do
  let inuse ← sfsBlockInuse fs ino
  ensure inuse .blockInuse

/-- `sfs_block_alloc`. -/
def sfsBlockAlloc (fs : Fs) : Except Panic (Ret ℕ × Fs) := do
  match ← bitmapAlloc fs.freemap with
  | none => .ok (.error (-E_NO_MEM), fs)
  | some (ino, freemap) =>
    let fs := { fs with freemap := freemap }
    ensure (fs.unusedBlocks > 0) .assertion
    let fs := { fs with unusedBlocks := fs.unusedBlocks - 1, superDirty := true }
    assertInuse fs ino
    let fs ← sfsClearBlock fs ino
    .ok (.ok ino, fs)

/-- `sfs_block_free`. -/
def sfsBlockFree (fs : Fs) (ino : ℕ) : Except Panic Fs := do
  assertInuse fs ino
  let freemap ← bitmapFree fs.freemap ino
  .ok { fs with freemap := freemap, unusedBlocks := fs.unusedBlocks + 1, superDirty := true }

/-! ### The block map -/

/-- The second half of `sfs_bmap_get_sub_nolock`: a block for the empty entry `index` of the indirect
block `ent`, where `*entp = ent₀`; `failed_cleanup` when there is none. -/
def bmapNewEntry (fs : Fs) (ent₀ ent index : ℕ) : Except Panic (Ret (ℕ × ℕ) × Fs) := do
  match ← sfsBlockAlloc fs with
  | (.error ret, fs) =>
    let fs ← (if ent ≠ ent₀ then sfsBlockFree fs ent else .ok fs)
    .ok (.error ret, fs)
  | (.ok ino, fs) =>
    let fs ← sfsWbuf fs (bytes32 ino) 4 ent (index * 4)
    .ok (.ok (ent, ino), fs)

/-- `sfs_bmap_get_sub_nolock` with `*entp = ent`: the new value of `*entp`, and `*ino_store`. -/
def sfsBmapGetSub (fs : Fs) (ent index : ℕ) (create : Bool) :
    Except Panic (Ret (ℕ × ℕ) × Fs) := do
  ensure (index < SFS_BLK_NENTRY) .assertion
  if ent ≠ 0 then
    let bytes ← sfsRbuf fs 4 ent (index * 4)
    let ino := read32 bytes 0
    if ino ≠ 0 ∨ create = false then .ok (.ok (ent, ino), fs)
    else bmapNewEntry fs ent ent index
  else if create = false then .ok (.ok (ent, 0), fs)
  else
    match ← sfsBlockAlloc fs with
    | (.error ret, fs) => .ok (.error ret, fs)
    | (.ok ent', fs) => bmapNewEntry fs ent ent' index

/-- The label `out` of `sfs_bmap_get_nolock`. -/
def bmapOut (fs : Fs) (sin : Inode) (ino : ℕ) : Except Panic (Ret ℕ × Fs × Inode) := do
  (if ino ≠ 0 then assertInuse fs ino else .ok ())
  .ok (.ok ino, fs, sin)

/-- `sfs_bmap_get_nolock`. -/
def sfsBmapGet (fs : Fs) (sin : Inode) (index : ℕ) (create : Bool) :
    Except Panic (Ret ℕ × Fs × Inode) := do
  let din := sin.din
  if index < SFS_NDIRECT then
    if din.direct index = 0 ∧ create = true then
      match ← sfsBlockAlloc fs with
      | (.error ret, fs) => .ok (.error ret, fs, sin)
      | (.ok ino, fs) =>
        let din := { din with direct := Function.update din.direct index ino }
        bmapOut fs { sin with din := din, dirty := true } ino
    else bmapOut fs sin (din.direct index)
  else if index - SFS_NDIRECT < SFS_BLK_NENTRY then
    match ← sfsBmapGetSub fs din.indirect (index - SFS_NDIRECT) create with
    | (.error ret, fs) => .ok (.error ret, fs, sin)
    | (.ok (ent, ino), fs) =>
      if ent ≠ din.indirect then
        ensure (din.indirect = 0) .assertion
        bmapOut fs { sin with din := { din with indirect := ent }, dirty := true } ino
      else bmapOut fs sin ino
  else .error .indexOutOfRange

/-- `sfs_bmap_load_nolock`. -/
def sfsBmapLoad (fs : Fs) (sin : Inode) (index : ℕ) : Except Panic (Ret ℕ × Fs × Inode) := do
  ensure (index ≤ sin.din.blocks) .bmapIndex
  let create : Bool := index = sin.din.blocks
  match ← sfsBmapGet fs sin index create with
  | (.error ret, fs, sin) => .ok (.error ret, fs, sin)
  | (.ok ino, fs, sin) =>
    assertInuse fs ino
    if create then
      .ok (.ok ino, fs, { sin with din := { sin.din with blocks := sin.din.blocks + 1 } })
    else .ok (.ok ino, fs, sin)

/-- `sfs_bmap_free_sub_nolock`. -/
def sfsBmapFreeSub (fs : Fs) (ent index : ℕ) : Except Panic Fs := do
  assertInuse fs ent
  ensure (index < SFS_BLK_NENTRY) .assertion
  let bytes ← sfsRbuf fs 4 ent (index * 4)
  let ino := read32 bytes 0
  if ino ≠ 0 then
    let fs ← sfsWbuf fs (bytes32 0) 4 ent (index * 4)
    sfsBlockFree fs ino
  else .ok fs

/-- `sfs_bmap_free_nolock`. -/
def sfsBmapFree (fs : Fs) (sin : Inode) (index : ℕ) : Except Panic (Fs × Inode) := do
  let din := sin.din
  if index < SFS_NDIRECT then
    if din.direct index ≠ 0 then
      let fs ← sfsBlockFree fs (din.direct index)
      let din := { din with direct := Function.update din.direct index 0 }
      .ok (fs, { sin with din := din, dirty := true })
    else .ok (fs, sin)
  else if index - SFS_NDIRECT < SFS_BLK_NENTRY then
    if din.indirect ≠ 0 then
      let fs ← sfsBmapFreeSub fs din.indirect (index - SFS_NDIRECT)
      .ok (fs, sin)
    else .ok (fs, sin)
  else .ok (fs, sin)

/-- `sfs_bmap_truncate_nolock`. -/
def sfsBmapTruncate (fs : Fs) (sin : Inode) : Except Panic (Fs × Inode) := do
  ensure (sin.din.blocks ≠ 0) .assertion
  let (fs, sin) ← sfsBmapFree fs sin (sin.din.blocks - 1)
  .ok (fs, { sin with din := { sin.din with blocks := sin.din.blocks - 1 }, dirty := true })

/-! ### Reading and writing -/

/-- `sfs_buf_op` on `size` bytes of the buffer from `at` on: `sfs_wbuf` or `sfs_rbuf`. -/
def sfsBufOp (write : Bool) (fs : Fs) (buf : Mem) (pos size blkno blkoff : ℕ) :
    Except Panic (Fs × Mem) := do
  if write then
    let fs ← sfsWbuf fs (fun i => buf (pos + i)) size blkno blkoff
    .ok (fs, buf)
  else
    let bytes ← sfsRbuf fs size blkno blkoff
    .ok (fs, memcpy buf pos bytes size)

/-- `sfs_block_op` on the block of the buffer from `pos` on: `sfs_wblock` or `sfs_rblock`. -/
def sfsBlockOp (write : Bool) (fs : Fs) (buf : Mem) (pos blkno : ℕ) :
    Except Panic (Fs × Mem) := do
  if write then
    let fs ← sfsWblock fs (fun i => buf (pos + i)) blkno
    .ok (fs, buf)
  else
    let bytes ← sfsRblock fs blkno
    .ok (fs, memcpy buf pos bytes SFS_BLKSIZE)

/-- The locals of `sfs_io_nolock` that change: `data - buf` is always `alen`, and `pos` is
`offset + alen`. -/
structure Io where
  ret : ℤ
  alen : ℕ
  fs : Fs
  sin : Inode
  buf : Mem

/-- One unaligned part of the transfer: `sfs_bmap_load_nolock`, then `sfs_buf_op`. -/
def ioPart (write : Bool) (blkno blkoff size : ℕ) (io : Io) : Except Panic Io := do
  match ← sfsBmapLoad io.fs io.sin blkno with
  | (.error ret, fs, sin) => .ok { io with ret := ret, fs := fs, sin := sin }
  | (.ok ino, fs, sin) =>
    let (fs, buf) ← sfsBufOp write fs io.buf io.alen size ino blkoff
    .ok { io with alen := io.alen + size, fs := fs, sin := sin, buf := buf }

/-- The loop of `sfs_io_nolock` over whole blocks. -/
def ioBlocks (write : Bool) : ℕ → ℕ → Io → Except Panic Io
  | 0, _, io => .ok io
  | nblks + 1, blkno, io => do
    match ← sfsBmapLoad io.fs io.sin blkno with
    | (.error ret, fs, sin) => .ok { io with ret := ret, fs := fs, sin := sin }
    | (.ok ino, fs, sin) =>
      let (fs, buf) ← sfsBlockOp write fs io.buf io.alen ino
      ioBlocks write nblks (blkno + 1)
        { io with alen := io.alen + SFS_BLKSIZE, fs := fs, sin := sin, buf := buf }

/-- The three parts of the transfer of the bytes `[offset, endpos)`. -/
def ioTransfer (write : Bool) (offset endpos : ℕ) (io : Io) : Except Panic Io := do
  let blkno := offset / SFS_BLKSIZE
  let nblks := endpos / SFS_BLKSIZE - blkno
  let blkoff := offset % SFS_BLKSIZE
  let size := if nblks ≠ 0 then SFS_BLKSIZE - blkoff else endpos - offset
  let io ← (if blkoff ≠ 0 then ioPart write blkno blkoff size io else .ok io)
  if io.ret ≠ 0 then .ok io else
  let (blkno, nblks) := if blkoff ≠ 0 then (blkno + 1, nblks - 1) else (blkno, nblks)
  let io ← ioBlocks write nblks blkno io
  if io.ret ≠ 0 then .ok io else
  if offset + io.alen < endpos then
    ioPart write (blkno + nblks) 0 (endpos - (offset + io.alen)) io
  else .ok io

/-- The label `out` of `sfs_io_nolock`. -/
def ioOut (offset : ℕ) (io : Io) : Io :=
  if offset + io.alen > io.sin.din.size then
    { io with sin := { io.sin with
      din := { io.sin.din with size := (offset + io.alen) % 2 ^ 32 }, dirty := true } }
  else io

/-- `sfs_io_nolock`; `len` is `*alenp` before the call, `alen` is `*alenp` after it. -/
def sfsIoNolock (fs : Fs) (sin : Inode) (buf : Mem) (offset : ℤ) (len : ℕ) (write : Bool) :
    Except Panic Io := do
  ensure (sin.din.type ≠ SFS_TYPE_DIR) .assertion
  let endpos := (offset + len).bmod (2 ^ 64)
  if offset < 0 ∨ offset ≥ SFS_MAX_FILE_SIZE ∨ offset > endpos then
    .ok ⟨-E_INVAL, 0, fs, sin, buf⟩
  else if offset = endpos then .ok ⟨0, 0, fs, sin, buf⟩
  else
    let endpos := min endpos SFS_MAX_FILE_SIZE
    if write = false ∧ offset ≥ sin.din.size then .ok ⟨0, 0, fs, sin, buf⟩
    else
      let endpos := if write then endpos else min endpos sin.din.size
      let io ← ioTransfer write offset.toNat endpos.toNat ⟨0, 0, fs, sin, buf⟩
      .ok (ioOut offset.toNat io)

/-! ### Truncation -/

/-- The loop of `sfs_truncfile` that adds blocks. -/
def growLoop : ℕ → ℕ → Fs → Inode → Except Panic (ℤ × Fs × Inode)
  | 0, _, fs, sin => .ok (0, fs, sin)
  | k + 1, nblks, fs, sin => do
    match ← sfsBmapLoad fs sin nblks with
    | (.error ret, fs, sin) => .ok (ret, fs, sin)
    | (.ok _, fs, sin) => growLoop k (nblks + 1) fs sin

/-- The loop of `sfs_truncfile` that frees blocks. -/
def shrinkLoop : ℕ → Fs → Inode → Except Panic (Fs × Inode)
  | 0, fs, sin => .ok (fs, sin)
  | k + 1, fs, sin => do
    let (fs, sin) ← sfsBmapTruncate fs sin
    shrinkLoop k fs sin

/-- `sfs_truncfile`. -/
def sfsTruncfile (fs : Fs) (sin : Inode) (len : ℤ) : Except Panic (ℤ × Fs × Inode) := do
  if len < 0 ∨ len > SFS_MAX_FILE_SIZE then .ok (-E_INVAL, fs, sin) else
  let tblks := (len.toNat + SFS_BLKSIZE - 1) / SFS_BLKSIZE
  if sin.din.size = len then
    ensure (tblks = sin.din.blocks) .truncBlocks
    .ok (0, fs, sin)
  else
    let (ret, fs, sin) ←
      (if sin.din.blocks < tblks then
        growLoop (tblks - sin.din.blocks) sin.din.blocks fs sin
      else
        (shrinkLoop (sin.din.blocks - tblks) fs sin).map fun (fs, sin) => (0, fs, sin))
    if ret ≠ 0 then .ok (ret, fs, sin) else
    ensure (sin.din.blocks = tblks) .truncBlocks
    .ok (0, fs, { sin with din := { sin.din with size := len.toNat }, dirty := true })

/-- `sfs_tryseek`. -/
def sfsTryseek (fs : Fs) (sin : Inode) (pos : ℤ) : Except Panic (ℤ × Fs × Inode) :=
  if pos < 0 ∨ pos ≥ SFS_MAX_FILE_SIZE then .ok (-E_INVAL, fs, sin)
  else if pos > sin.din.size then sfsTruncfile fs sin pos
  else .ok (0, fs, sin)

end Ucore.Sfs
