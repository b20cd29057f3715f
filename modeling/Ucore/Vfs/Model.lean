import Ucore.Lib.NameGraph
import Ucore.Sfs.Directory

/-!
# Names of files (`kern/fs/vfs`, `kern/fs/sfs/sfs_inode.c` of lab8)

`vfs_lookup` takes the name of a device off the front of a path, chooses the inode to start from and
leaves the rest of the path to the file system.  The state has the mounted file system with its inodes
in memory, the reference counts, `vdev_list`, `bootfs_node` and the working directory.

An inode of the file system in memory is the one with its number: `sfs_load_inode` keeps one for each
number.  `kmalloc` may fail; what it returns is given in `Alloc`.  The open counts and the bounds that
`inode_check` has for the counts are left out.
-/

namespace Ucore.Vfs

open Sfs Memory

def E_NO_DEV : ℤ := 13

def E_NOTDIR : ℤ := 18

/-- The block of the root directory's inode. -/
def SFS_BLKN_ROOT : ℕ := 1

/-- `':'` -/
def colonChar : UInt8 := 58

/-- `'/'` -/
def slashChar : UInt8 := 47

/-- An inode: of the file system, or of a device. -/
inductive Node
  | sfs (ino : ℕ)
  | dev (devname : List UInt8)
  deriving DecidableEq

/-- `vfs_dev_t` -/
structure VfsDev where
  devname : List UInt8
  /-- the file system is mounted on it -/
  fs : Bool
  mountable : Bool

structure Kernel where
  mount : Mount
  refCount : Node → ℕ
  vdevList : List VfsDev
  bootfs : Option Node
  pwd : Option Node

/-- What `kmalloc` returns to `sfs_dirent_search_nolock`, and whether it returns memory to
`sfs_load_inode` and `sfs_create_inode`. -/
structure Alloc where
  entry : Option Mem
  din : Bool
  node : Bool

/-! ### References -/

/-- `inode_ref_inc`, on the counts. -/
def incRef (r : Node → ℕ) (n : Node) : Node → ℕ := Function.update r n (r n + 1)

def decRef (r : Node → ℕ) (n : Node) : Node → ℕ := Function.update r n (r n - 1)

def Kernel.refInc (k : Kernel) (n : Node) : Kernel := { k with refCount := incRef k.refCount n }

/-- `inode_ref_dec`; the inodes of devices have no `vop_reclaim`. -/
def Kernel.refDec (k : Kernel) (n : Node) : Except Panic Kernel := do
  ensure (0 < k.refCount n) .assertion
  let k := { k with refCount := decRef k.refCount n }
  if k.refCount n = 0 then
    match n with
    | .sfs ino =>
      let (_, mount) ← sfsReclaim k.mount ino
      .ok { k with mount := mount }
    | .dev _ => .error .assertion
  else .ok k

/-! ### The file system -/

/-- `sfs_load_inode`. -/
def Kernel.sfsLoadInode (k : Kernel) (a : Alloc) (ino : ℕ) : Except Panic (Ret Node × Kernel) :=
  if ino ∈ k.mount.inodeList then .ok (.ok (.sfs ino), k.refInc (.sfs ino))
  else if a.din = false then .ok (.error (-E_NO_MEM), k)
  else if a.node = false then do
    assertInuse k.mount.fs ino
    let bytes ← sfsRbuf k.mount.fs sizeofDiskInode ino 0
    ensure (decodeLinks bytes ≠ 0) .assertion
    .ok (.error (-E_NO_MEM), k)
  else do
    let mount ← Sfs.sfsLoadInode k.mount ino
    .ok (.ok (.sfs ino),
      { k with mount := mount, refCount := Function.update k.refCount (.sfs ino) 1 })

/-- `sfs_lookup_once`, in the directory `ino`. -/
def Kernel.sfsLookupOnce (k : Kernel) (a : Alloc) (ino : ℕ) (name : List UInt8) :
    Except Panic (Ret Node × Kernel) := do
  let (r, fs, sin) ← sfsDirentSearch k.mount.fs (k.mount.inode ino) name a.entry
  let k := { k with mount := k.mount.setInode ino fs sin }
  if r.ret ≠ 0 then .ok (.error r.ret, k) else k.sfsLoadInode a (r.ino.getD 0)

/-- `sfs_lookup`. -/
def Kernel.sfsLookup (k : Kernel) (a : Alloc) (ino : ℕ) (path : List UInt8) :
    Except Panic (Ret Node × Kernel) := do
  ensure (path ≠ [] ∧ path.head? ≠ some slashChar) .assertion
  let k := k.refInc (.sfs ino)
  if (k.mount.inode ino).din.type ≠ SFS_TYPE_DIR then
    let k ← k.refDec (.sfs ino)
    .ok (.error (-E_NOTDIR), k)
  else
    let (r, k) ← k.sfsLookupOnce a ino path
    let k ← k.refDec (.sfs ino)
    .ok (r, k)

/-- `sfs_get_root`, which panics where the inode cannot be loaded. -/
def Kernel.sfsGetRoot (k : Kernel) (a : Alloc) : Except Panic (Node × Kernel) := do
  match ← k.sfsLoadInode a SFS_BLKN_ROOT with
  | (.ok node, k) => .ok (node, k)
  | (.error _, _) => .error .assertion

/-! ### The virtual file system -/

/-- `vfs_get_curdir`. -/
def Kernel.vfsGetCurdir (k : Kernel) : Ret Node × Kernel :=
  match k.pwd with
  | some node => (.ok node, k.refInc node)
  | none => (.error (-E_NOENT), k)

/-- `vfs_get_bootfs`. -/
def Kernel.vfsGetBootfs (k : Kernel) : Ret Node × Kernel :=
  match k.bootfs with
  | some node => (.ok node, k.refInc node)
  | none => (.error (-E_NOENT), k)

/-- `vfs_get_root`. -/
def Kernel.vfsGetRoot (k : Kernel) (a : Alloc) (devname : List UInt8) :
    Except Panic (Ret Node × Kernel) :=
  match k.vdevList.find? fun vdev => vdev.devname = devname with
  | none => .ok (.error (-E_NO_DEV), k)
  | some vdev =>
    if vdev.fs then do
      let (node, k) ← k.sfsGetRoot a
      .ok (.ok node, k)
    else if vdev.mountable = false then .ok (.ok (.dev vdev.devname), k.refInc (.dev vdev.devname))
    else .ok (.error (-E_NA_DEV), k)

/-- The loop of `get_device`, over the path from the index `i`: `colon` and `slash`. -/
def scanPath : List UInt8 → ℕ → Option ℕ × Option ℕ
  | [], _ => (none, none)
  | c :: path, i =>
    if c = colonChar then (some i, none)
    else if c = slashChar then (none, some i)
    else scanPath path (i + 1)

/-- The path behind slashes. -/
def skipSlashes (path : List UInt8) : List UInt8 := path.dropWhile (· = slashChar)

/-- `get_device`: the rest of the path, and where to start. -/
def Kernel.getDevice (k : Kernel) (a : Alloc) (path : List UInt8) :
    Except Panic (Ret (List UInt8 × Node) × Kernel) :=
  let (colon, slash) := scanPath path 0
  if colon = none ∧ slash ≠ some 0 then
    let (r, k) := k.vfsGetCurdir
    .ok (r.map fun node => (path, node), k)
  else if 0 < colon.getD 0 then do
    -- the name of the device ends where the colon was
    let (r, k) ← k.vfsGetRoot a (path.take (colon.getD 0))
    .ok (r.map fun node => (skipSlashes (path.drop (colon.getD 0 + 1)), node), k)
  else if path.head? = some slashChar then
    let (r, k) := k.vfsGetBootfs
    .ok (r.map fun node => (skipSlashes (path.drop 1), node), k)
  else do
    ensure (path.head? = some colonChar) .assertion
    match k.vfsGetCurdir with
    | (.error ret, k) => .ok (.error ret, k)
    | (.ok (.dev _), _) => .error .assertion
    | (.ok (.sfs ino), k) =>
      let (node, k) ← k.sfsGetRoot a
      let k ← k.refDec (.sfs ino)
      .ok (.ok (skipSlashes (path.drop 1), node), k)

/-- `vop_lookup`, with `dev_lookup`.  Regular files have no such operation. -/
def Kernel.vopLookup (k : Kernel) (a : Alloc) (node : Node) (path : List UInt8) :
    Except Panic (Ret Node × Kernel) :=
  match node with
  | .sfs ino =>
    if (k.mount.inode ino).din.type = SFS_TYPE_DIR then k.sfsLookup a ino path else .error .assertion
  | .dev devname =>
    if path ≠ [] then .ok (.error (-E_NOENT), k) else .ok (.ok node, k.refInc (.dev devname))

/-- `vfs_lookup`; `a` is what `kmalloc` returns in `get_device`, and `b` what it returns in
`vop_lookup`. -/
def Kernel.vfsLookup (k : Kernel) (a b : Alloc) (path : List UInt8) :
    Except Panic (Ret Node × Kernel) := do
  match ← k.getDevice a path with
  | (.error ret, k) => .ok (.error ret, k)
  | (.ok (path, node), k) =>
    if path ≠ [] then
      let (r, k) ← k.vopLookup b node path
      let k ← k.refDec node
      .ok (r, k)
    else .ok (.ok node, k)

end Ucore.Vfs
