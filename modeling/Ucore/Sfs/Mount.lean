import Ucore.Sfs.Descriptors
import Ucore.Sfs.DiskFormat

/-!
# The mounted file system (`lab8/kern/fs/sfs/sfs_fs.c`, `sfs_inode.c`)

`Mount` is a `struct sfs_fs` with its inodes in memory: `inode_list`, the inodes, and the field
`nlinks` of each.  An inode is loaded from its block, changed in memory, and written back by
`sfs_fsync` where its flag is set; the super block and the freemap are written by `sfs_sync`.
`sfsDoMount` reads them again.

The device and `kmalloc` always succeed.  The references of an inode are left out: `sfsReclaim` is the
call for an inode that nothing refers to.
-/

namespace Ucore.Sfs

open Memory

def SFS_MAGIC : ℕ := 0x2f8dbe2a

def E_NA_DEV : ℤ := 14

structure Mount where
  magic : ℕ
  info : Mem
  fs : Fs
  inodeList : List ℕ
  inode : ℕ → Inode
  nlinks : ℕ → ℕ

/-! ### Inodes -/

def Mount.setInode (m : Mount) (ino : ℕ) (fs : Fs) (sin : Inode) : Mount :=
  { m with fs := fs, inode := Function.update m.inode ino sin }

/-- `sfs_load_inode`, with `sfs_create_inode` and the check of the type in `sfs_get_ops`. -/
def sfsLoadInode (m : Mount) (ino : ℕ) : Except Panic Mount :=
  if ino ∈ m.inodeList then .ok m else do
  assertInuse m.fs ino
  let bytes ← sfsRbuf m.fs sizeofDiskInode ino 0
  ensure (decodeLinks bytes ≠ 0) .assertion
  let din := decodeInode bytes
  ensure (din.type = SFS_TYPE_DIR ∨ din.type = SFS_TYPE_FILE) .assertion
  .ok { m.setInode ino m.fs ⟨din, ino, false⟩ with
    inodeList := ino :: m.inodeList
    nlinks := Function.update m.nlinks ino (decodeLinks bytes) }

/-- `sfs_fsync`. -/
def sfsFsync (m : Mount) (ino : ℕ) : Except Panic Mount :=
  let sin := m.inode ino
  if sin.dirty = true then do
    let fs ← sfsWbuf m.fs (encodeInode sin.din (m.nlinks ino)) sizeofDiskInode sin.ino 0
    .ok (m.setInode ino fs { sin with dirty := false })
  else .ok m

/-- `sfs_reclaim` of an inode without references. -/
def sfsReclaim (m : Mount) (ino : ℕ) : Except Panic (ℤ × Mount) := do
  let (ret, m) ←
    (if m.nlinks ino = 0 then do
      let (ret, fs, sin) ← sfsTruncfile m.fs (m.inode ino) 0
      .ok (ret, m.setInode ino fs sin)
    else .ok (0, m))
  if ret ≠ 0 then .ok (ret, m) else
  let m ← sfsFsync m ino
  let m := { m with inodeList := m.inodeList.erase ino }
  if m.nlinks ino = 0 then
    let fs ← sfsBlockFree m.fs (m.inode ino).ino
    let ent := (m.inode ino).din.indirect
    let fs ← (if ent ≠ 0 then sfsBlockFree fs ent else .ok fs)
    .ok (0, { m with fs := fs })
  else .ok (0, m)

/-! ### The super block and the freemap -/

/-- `sfs_wblock` of `nblks` blocks. -/
def sfsWblocks (fs : Fs) (buf : Mem) (blkno : ℕ) : ℕ → Except Panic Fs
  | 0 => .ok fs
  | nblks + 1 => do
    let fs ← sfsWblock fs buf blkno
    sfsWblocks fs (fun i => buf (SFS_BLKSIZE + i)) (blkno + 1) nblks

/-- `sfs_freemap_bits`. -/
def sfsFreemapBits (blocks : ℕ) : ℕ := (blocks + SFS_BLKBITS - 1) / SFS_BLKBITS * SFS_BLKBITS % 2 ^ 32

/-- `sfs_freemap_blocks`. -/
def sfsFreemapBlocks (blocks : ℕ) : ℕ := (blocks + SFS_BLKBITS - 1) / SFS_BLKBITS

/-- `sfs_sync_super`. -/
def sfsSyncSuper (m : Mount) : Except Panic Fs := do
  let super := encodeSuper m.magic m.fs.blocks m.fs.unusedBlocks m.info
  let buffer := memcpy (fun _ => 0) 0 super sizeofSuper
  ensure (SFS_BLKN_SUPER < m.fs.blocks) .assertion
  .ok (m.fs.setDisk SFS_BLKN_SUPER (memcpy (m.fs.disk SFS_BLKN_SUPER) 0 buffer SFS_BLKSIZE))

/-- `sfs_sync_freemap`. -/
def sfsSyncFreemap (fs : Fs) : Except Panic Fs :=
  sfsWblocks fs (bitmapGetdata fs.freemap) SFS_BLKN_FREEMAP (sfsFreemapBlocks fs.blocks)

/-- `sfs_sync`. -/
def sfsSync (m : Mount) : Except Panic Mount := do
  let m ← m.inodeList.foldlM sfsFsync m
  if m.fs.superDirty = true then
    let fs ← sfsSyncSuper m
    let fs ← sfsSyncFreemap fs
    .ok { m with fs := { fs with superDirty := false } }
  else .ok m

/-! ### Mounting -/

/-- `struct device` with its blocks. -/
structure Device where
  dBlocks : ℕ
  dBlocksize : ℕ
  disk : ℕ → Mem

/-- `bitmap_create` of a multiple of `WORD_BITS` bits. -/
def bitmapCreate (nbits : ℕ) : Except Panic Bitmap := do
  ensure (nbits ≠ 0) .assertion
  .ok ⟨nbits, nbits / WORD_BITS, fun _ => BitVec.allOnes 32⟩

/-- The loop of `sfs_init_freemap`: `nblks` blocks from `blkno` on are read to `data + pos`. -/
def initFreemapLoop (disk : ℕ → Mem) (data : Mem) (pos blkno : ℕ) : ℕ → Mem
  | 0 => data
  | nblks + 1 => initFreemapLoop disk (memcpy data pos (disk blkno) SFS_BLKSIZE) (pos + SFS_BLKSIZE)
      (blkno + 1) nblks

/-- `sfs_init_freemap`. -/
def sfsInitFreemap (dev : Device) (freemap : Bitmap) (blkno nblks : ℕ) : Except Panic Bitmap := do
  ensure (freemap.nwords * 4 = nblks * SFS_BLKSIZE) .assertion
  let data := initFreemapLoop dev.disk (bitmapGetdata freemap) 0 blkno nblks
  .ok { freemap with map := fun ix => BitVec.ofNat 32 (read32 data (4 * ix)) }

/-- The loop of `sfs_do_mount` that counts the set bits. -/
def countUnused (freemap : Bitmap) : ℕ → Except Panic ℕ
  | 0 => .ok 0
  | i + 1 => do
    let unused ← countUnused freemap i
    let free ← bitmapTest freemap i
    .ok (if free then unused + 1 else unused)

/-- The contents of inodes that are not in memory. -/
def noInode : Inode := ⟨⟨0, 0, 0, fun _ => 0, 0⟩, 0, false⟩

/-- `sfs_do_mount`. -/
def sfsDoMount (dev : Device) : Except Panic (Ret Mount) :=
  if dev.dBlocksize ≠ SFS_BLKSIZE then .ok (.error (-E_NA_DEV)) else
  let super := dev.disk SFS_BLKN_SUPER
  let magic := read32 super 0
  let blocks := read32 super 4
  let unusedBlocks := read32 super 8
  if magic ≠ SFS_MAGIC then .ok (.error (-E_INVAL)) else
  if blocks > dev.dBlocks then .ok (.error (-E_INVAL)) else do
  let info := Function.update (fun i => super (12 + i)) SFS_MAX_INFO_LEN 0
  let freemap ← bitmapCreate (sfsFreemapBits blocks)
  let freemap ← sfsInitFreemap dev freemap SFS_BLKN_FREEMAP (sfsFreemapBlocks blocks)
  let unused ← countUnused freemap (sfsFreemapBits blocks)
  ensure (unused = unusedBlocks) .assertion
  .ok (.ok ⟨magic, info, ⟨blocks, unusedBlocks, freemap, false, dev.disk⟩, [], fun _ => noInode,
    fun _ => 0⟩)

/-! ### Operations -/

/-- The operations that change the mounted file system.  Reading a directory changes nothing. -/
inductive MountOp
  | load (ino : ℕ)
  | call (ino : ℕ) (c : NodeCall)
  | fsync (ino : ℕ)
  | reclaim (ino : ℕ)
  | sync

def MountOp.run (m : Mount) : MountOp → Except Panic (ℤ × Mount)
  | .load ino => (sfsLoadInode m ino).map fun m => (0, m)
  | .call ino c => (c.run m.fs (m.inode ino)).map fun (ret, fs, sin) => (ret, m.setInode ino fs sin)
  | .fsync ino => (sfsFsync m ino).map fun m => (0, m)
  | .reclaim ino => sfsReclaim m ino
  | .sync => (sfsSync m).map fun m => (0, m)

/-- When an operation is called: the inodes with numbers in `inodes` are loaded, and an operation is
called on an inode in memory, reads and writes on regular files. -/
def MountOp.Enabled (inodes : Set ℕ) (m : Mount) : MountOp → Prop
  | .load ino => ino ∈ inodes
  | .call ino _ => ino ∈ m.inodeList ∧ (m.inode ino).din.type = SFS_TYPE_FILE
  | .fsync ino => ino ∈ m.inodeList
  | .reclaim ino => ino ∈ m.inodeList
  | .sync => True

/-- An operation that succeeds. -/
def Mount.Step (inodes : Set ℕ) (m m' : Mount) : Prop :=
  ∃ op : MountOp, op.Enabled inodes m ∧ op.run m = .ok (0, m')

end Ucore.Sfs
