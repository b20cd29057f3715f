import Ucore.Fd.Model
import Ucore.Sfs.Types
import Ucore.Vfs.Getcwd

/-!
# The file system calls of lab8 (`kern/fs/file.c`, `kern/fs/fs.c`, `kern/fs/vfs`)

Any number of tables of open files, each with its working directory, over one kernel with its inodes.  A
call finds its inode by a path or by a descriptor, and goes to it through the table of operations of the
inode: directories and files of the file system and devices have different tables, and `__vop_op` asserts
that the operation is there (`Stop.missing`).

`inode_ref_inc` and `inode_open_inc` count what refers to an inode; `vfs_open`, `vfs_close`, `vfs_chdir`,
`dup_files` and `files_destroy` have to keep the two counts.

A call runs to its end before the next one: what happens to a descriptor while several processes are
inside calls is in `Ucore.Fd`.  An entry of a table is `FD_NONE` or `FD_OPENED` then, with an open count
of 1.  The devices are `stdin` and `stdout`, which have no blocks; what the driver returns is given in the
call.  The bounds that `inode_check` has for the counts are left out.
-/

namespace Ucore.Filesys

open Sfs Vfs Memory Fallible

/-- The operations of `struct inode_ops`. -/
inductive VopName
  | open
  | close
  | read
  | write
  | fstat
  | fsync
  | namefile
  | getdirentry
  | reclaim
  | gettype
  | tryseek
  | truncate
  | create
  | lookup
  | ioctl
  deriving DecidableEq, Repr

/-- The tables: `sfs_node_dirops`, `sfs_node_fileops` and `dev_node_ops`. -/
inductive Kind
  | dir
  | file
  | device
  deriving DecidableEq, Repr

def Kind.ops : Kind → List VopName
  | .dir => [.open, .close, .fstat, .fsync, .namefile, .getdirentry, .reclaim, .gettype, .lookup]
  | .file => [.open, .close, .read, .write, .fstat, .fsync, .reclaim, .gettype, .tryseek, .truncate]
  | .device => [.open, .close, .read, .write, .fstat, .ioctl, .gettype, .tryseek, .lookup]

/-- Why a call does not return. -/
inductive Stop
  /-- the table of the inode does not have the operation -/
  | missing (op : VopName)
  | panic (p : Panic)
  /-- the loop of `sfs_namefile` has not ended -/
  | running

def E_ISDIR : ℤ := 17

/-- `"stdin"` -/
def stdinName : List UInt8 := [115, 116, 100, 105, 110]

/-- A function that knows nothing of the tables. -/
def lift {α : Type} : Except Panic α → Except Stop α := Except.mapError .panic

/-! ### Inodes -/

/-- The inodes in memory.  `pwd` of the kernel is the working directory of the process that calls. -/
structure Inodes where
  kernel : Kernel
  openCount : Node → ℕ

/-- The table that `sfs_get_ops` or `dev_create_inode` has given the inode. -/
def kind (k : Kernel) : Node → Kind
  | .sfs ino => if (k.mount.inode ino).din.type = SFS_TYPE_DIR then .dir else .file
  | .dev _ => .device

namespace Inodes

/-- `__vop_op` -/
def vop (s : Inodes) (n : Node) (op : VopName) : Except Stop Unit :=
  require (op ∈ (kind s.kernel n).ops) (.missing op)

def setMount (s : Inodes) (m : Mount) : Inodes := { s with kernel := { s.kernel with mount := m } }

/-- `inode_ref_inc` -/
def refInc (s : Inodes) (n : Node) : Inodes := { s with kernel := s.kernel.refInc n }

/-- `inode_ref_dec`, which asks for `vop_reclaim` when it gives the last reference back -/
def refDec (s : Inodes) (n : Node) : Except Stop Inodes := do
  (if s.kernel.refCount n = 1 then s.vop n .reclaim else .ok ())
  let k ← lift (s.kernel.refDec n)
  .ok { s with kernel := k }

/-- `inode_open_inc` -/
def openInc (s : Inodes) (n : Node) : Inodes := { s with openCount := incRef s.openCount n }

/-- `vop_fsync` -/
def vopFsync (s : Inodes) (n : Node) : Except Stop Inodes := do
  s.vop n .fsync
  match n with
  | .sfs ino => do
    let m ← lift (sfsFsync s.kernel.mount ino)
    .ok (s.setMount m)
  | .dev _ => .ok s

/-- `vop_close`: `sfs_close`, or `dev_close` with `stdin_close` or `stdout_close`. -/
def vopClose (s : Inodes) (n : Node) : Except Stop Inodes := do
  s.vop n .close
  match n with
  | .sfs _ => s.vopFsync n
  | .dev _ => .ok s

/-- `inode_open_dec` -/
def openDec (s : Inodes) (n : Node) : Except Stop Inodes := do
  lift (ensure (0 < s.openCount n) .assertion)
  let s := { s with openCount := decRef s.openCount n }
  if s.openCount n = 0 then s.vopClose n else .ok s

/-- `sfs_opendir` -/
def sfsOpendir (flags : BitVec 32) : ℤ :=
  if flags &&& O_ACCMODE ≠ O_RDONLY then -E_ISDIR
  else if testFlag flags O_APPEND then -E_ISDIR else 0

/-- `d_open`: `stdin_open`, or `stdout_open`. -/
def dopOpen (devname : List UInt8) (flags : BitVec 32) : ℤ :=
  if flags = (if devname = stdinName then O_RDONLY else O_WRONLY) then 0 else -E_INVAL

/-- `dev_open` -/
def devOpen (devname : List UInt8) (flags : BitVec 32) : ℤ :=
  if testFlag flags (O_CREAT ||| O_TRUNC ||| O_EXCL ||| O_APPEND) then -E_INVAL else dopOpen devname flags

/-- `vop_open`; `sfs_openfile` always succeeds. -/
def vopOpen (s : Inodes) (n : Node) (flags : BitVec 32) : Except Stop ℤ := do
  s.vop n .open
  match n with
  | .sfs _ => .ok (if kind s.kernel n = .dir then sfsOpendir flags else 0)
  | .dev devname => .ok (devOpen devname flags)

/-- `vop_fstat`: `st_size`.  It calls `vop_gettype`. -/
def vopFstat (s : Inodes) (n : Node) : Except Stop ℕ := do
  s.vop n .fstat
  s.vop n .gettype
  match n with
  | .sfs ino => .ok (s.kernel.mount.inode ino).din.size
  | .dev _ => .ok 0

/-- `vop_truncate` -/
def vopTruncate (s : Inodes) (n : Node) (len : ℤ) : Except Stop (ℤ × Inodes) := do
  s.vop n .truncate
  match n with
  | .sfs ino => do
    let (ret, fs, sin) ← lift (sfsTruncfile s.kernel.mount.fs (s.kernel.mount.inode ino) len)
    .ok (ret, s.setMount (s.kernel.mount.setInode ino fs sin))
  | .dev _ => .ok (-E_INVAL, s)

/-- `vop_tryseek`: `sfs_tryseek`, or `dev_tryseek` of a device without blocks. -/
def vopTryseek (s : Inodes) (n : Node) (pos : ℤ) : Except Stop (ℤ × Inodes) := do
  s.vop n .tryseek
  match n with
  | .sfs ino => do
    let (ret, fs, sin) ← lift (sfsTryseek s.kernel.mount.fs (s.kernel.mount.inode ino) pos)
    .ok (ret, s.setMount (s.kernel.mount.setInode ino fs sin))
  | .dev _ => .ok (-E_INVAL, s)

/-- What a device driver returns, the number of bytes that it has moved, and the buffer. -/
structure Driver where
  ret : ℤ
  copied : ℕ
  buf : Mem

/-- `vop_read` or `vop_write`: what it returns, the number of bytes moved, the buffer, and the state. -/
def vopIo (s : Inodes) (n : Node) (base : Mem) (pos : ℤ) (len : UInt64) (write : Bool) (drv : Driver) :
    Except Stop (ℤ × ℕ × Mem × Inodes) := do
  s.vop n (if write then .write else .read)
  match n with
  | .sfs ino => do
    let io ← lift (sfsIoNolock s.kernel.mount.fs (s.kernel.mount.inode ino) base pos len.toNat write)
    .ok (io.ret, io.alen, io.buf, s.setMount (s.kernel.mount.setInode ino io.fs io.sin))
  | .dev _ => .ok (drv.ret, drv.copied, drv.buf, s)

/-- `vop_getdirentry`: what it returns, the `dirent` after `file_getdirentry`, and the state. -/
def vopGetdirentry (s : Inodes) (n : Node) (d : Dirent) (entry : Option Mem) :
    Except Stop (ℤ × Dirent × Inodes) := do
  s.vop n .getdirentry
  match n with
  | .sfs ino => do
    let (ret, fs, sin, name, used) ←
      lift (sfsGetdirentry s.kernel.mount.fs (s.kernel.mount.inode ino) d entry)
    .ok (ret, ⟨if ret = 0 then d.offset + used else d.offset, name⟩,
      s.setMount (s.kernel.mount.setInode ino fs sin))
  | .dev _ => .ok (-E_INVAL, d, s)

/-! ### Opening and closing -/

/-- `vfs_lookup`; `a` is what `kmalloc` returns in `get_device`, and `b` what it returns in `vop_lookup`. -/
def vfsLookup (s : Inodes) (a b : Alloc) (path : List UInt8) : Except Stop (Ret Node × Inodes) := do
  match ← lift (s.kernel.getDevice a path) with
  | (.error ret, k) => .ok (.error ret, { s with kernel := k })
  | (.ok (path, node), k) =>
    let s := { s with kernel := k }
    if path ≠ [] then do
      s.vop node .lookup
      let (r, k) ← lift (s.kernel.vopLookup b node path)
      let s ← Inodes.refDec { s with kernel := k } node
      .ok (r, s)
    else .ok (.ok node, s)

/-- The path that is left for `vfs_lookup_parent`: `get_device` has put a zero where the name of the
device ends. -/
def parentPath (path : List UInt8) : List UInt8 :=
  match (scanPath path 0).1 with
  | some (colon + 1) => path.take (colon + 1)
  | _ => path

/-- `vfs_open`.  `a`, `b` and `c` are what `kmalloc` returns in `vfs_lookup` and in
`vfs_lookup_parent`. -/
def vfsOpen (s : Inodes) (a b c : Alloc) (path : List UInt8) (flags : BitVec 32) :
    Except Stop (Ret Node × Inodes) :=
  match accessMode flags with
  | none => .ok (.error (-E_INVAL), s)
  | some canWrite =>
    if testFlag flags O_TRUNC = true ∧ canWrite = false then .ok (.error (-E_INVAL), s) else do
    match ← s.vfsLookup a b path with
    | (.error ret, s) =>
      if ret = -E_NOENT ∧ testFlag flags O_CREAT = true then do
        match ← lift (s.kernel.getDevice c (parentPath path)) with
        | (.error ret, k) => .ok (.error ret, { s with kernel := k })
        | (.ok (_, dir), k) => do
          let s := { s with kernel := k }
          -- no table has the operation
          s.vop dir .create
          .ok (.error ret, s)
      else .ok (.error ret, s)
    | (.ok n, s) =>
      if testFlag flags O_EXCL = true ∧ testFlag flags O_CREAT = true then .ok (.error (-E_EXISTS), s)
      else do
        let ret ← s.vopOpen n flags
        if ret ≠ 0 then do
          let s ← s.refDec n
          .ok (.error ret, s)
        else
          let s := s.openInc n
          if testFlag flags O_TRUNC = true ∨ testFlag flags O_CREAT = true then do
            let (ret, s) ← s.vopTruncate n 0
            if ret ≠ 0 then do
              let s ← s.openDec n
              let s ← s.refDec n
              .ok (.error ret, s)
            else .ok (.ok n, s)
          else .ok (.ok n, s)

/-- `vfs_close` -/
def vfsClose (s : Inodes) (n : Node) : Except Stop Inodes := do
  let s ← s.openDec n
  s.refDec n

end Inodes

/-! ### Tables of open files -/

/-- `struct files_struct`. -/
structure Table where
  pwd : Option Node
  /-- the entries that are `FD_OPENED` -/
  fdArray : ℕ → Option (File Node)

/-- The tables `τ`; `filesCount` is 0 for one that is not in use. -/
structure System (τ : Type) where
  inodes : Inodes
  table : τ → Table
  filesCount : τ → ℕ

/-- A table without files and working directory. -/
def Table.empty : Table := ⟨none, fun _ => none⟩

/-- `fd2file` -/
def Table.fd2file (tab : Table) (fd : ℤ) : Option (ℕ × File Node) :=
  if Fd.State.testfd fd then (tab.fdArray fd.toNat).map fun f => (fd.toNat, f) else none

/-- `fd_array_alloc`: the entry, or an error. -/
def Table.fdArrayAlloc (tab : Table) (fd : ℤ) : Ret ℕ :=
  if fd = Fd.NO_FD then
    match (List.range Proc.FILES_STRUCT_NENTRY).find? fun i => (tab.fdArray i).isNone with
    | some i => .ok i
    | none => .error (-E_MAX_OPEN)
  else if Fd.State.testfd fd then
    if (tab.fdArray fd.toNat).isNone then .ok fd.toNat else .error (-Fd.E_BUSY)
  else .error (-E_INVAL)

variable {τ : Type} [DecidableEq τ]

namespace System

/-- The inodes for a process with the table `t`. -/
def current (s : System τ) (t : τ) : Inodes :=
  { s.inodes with kernel := { s.inodes.kernel with pwd := (s.table t).pwd } }

def setTable (s : System τ) (t : τ) (tab : Table) : System τ :=
  { s with table := Function.update s.table t tab }

def setFd (s : System τ) (t : τ) (i : ℕ) (f : Option (File Node)) : System τ :=
  s.setTable t { s.table t with fdArray := Function.update (s.table t).fdArray i f }

def setPwd (s : System τ) (t : τ) (pwd : Option Node) : System τ :=
  s.setTable t { s.table t with pwd := pwd }

/-- `file_open` -/
def fileOpen (s : System τ) (t : τ) (a b c : Alloc) (path : List UInt8) (flags : BitVec 32) :
    Except Stop (ℤ × System τ) :=
  match accessMode flags with
  | none => .ok (-E_INVAL, s)
  | some canWrite =>
    match (s.table t).fdArrayAlloc Fd.NO_FD with
    | .error ret => .ok (ret, s)
    | .ok i => do
      match ← (s.current t).vfsOpen a b c path flags with
      | (.error ret, inodes) => .ok (ret, { s with inodes := inodes })
      | (.ok n, inodes) => do
        let pos ← (if testFlag flags O_APPEND then (inodes.vopFstat n).map Int.ofNat else .ok 0)
        let s := { s with inodes := inodes }
        .ok (i, s.setFd t i (some ⟨n, pos, flags &&& O_ACCMODE != O_WRONLY, canWrite⟩))

/-- `fd_array_close` of an entry that refers to `n`. -/
def fdArrayClose (s : System τ) (t : τ) (i : ℕ) (n : Node) : Except Stop (System τ) := do
  let inodes ← s.inodes.vfsClose n
  .ok ({ s with inodes := inodes }.setFd t i none)

/-- `file_close` -/
def fileClose (s : System τ) (t : τ) (fd : ℤ) : Except Stop (ℤ × System τ) :=
  match (s.table t).fd2file fd with
  | none => .ok (-E_INVAL, s)
  | some (i, f) => do
    let s ← s.fdArrayClose t i f.node
    .ok (0, s)

/-- `file_read` and `file_write`: what they return, `*copied_store`, the buffer, and the state. -/
def fileIo (s : System τ) (t : τ) (fd : ℤ) (base : Mem) (len : UInt64) (write : Bool)
    (drv : Inodes.Driver) : Except Stop (ℤ × ℕ × Mem × System τ) :=
  match (s.table t).fd2file fd with
  | none => .ok (-E_INVAL, 0, base, s)
  | some (i, f) =>
    if (if write then f.writable else f.readable) = false then .ok (-E_INVAL, 0, base, s) else do
    let (ret, copied, buf, inodes) ← s.inodes.vopIo f.node base f.pos len write drv
    .ok (ret, copied, buf, { s with inodes := inodes }.setFd t i (some { f with pos := f.pos + copied }))

/-- `file_seek` -/
def fileSeek (s : System τ) (t : τ) (fd pos : ℤ) (whence : ℕ) : Except Stop (ℤ × System τ) :=
  match (s.table t).fd2file fd with
  | none => .ok (-E_INVAL, s)
  | some (i, f) => do
    let size ← (if whence = 2 then s.inodes.vopFstat f.node else .ok 0)
    match seekTarget pos whence f.pos size with
    | none => .ok (-E_INVAL, s)
    | some pos => do
      let (ret, inodes) ← s.inodes.vopTryseek f.node pos
      let s := { s with inodes := inodes }
      .ok (ret, if ret = 0 then s.setFd t i (some { f with pos := pos }) else s)

/-- `file_fstat`: what it returns, `st_size`, and the state. -/
def fileFstat (s : System τ) (t : τ) (fd : ℤ) : Except Stop (ℤ × ℕ × System τ) :=
  match (s.table t).fd2file fd with
  | none => .ok (-E_INVAL, 0, s)
  | some (_, f) => do
    let size ← s.inodes.vopFstat f.node
    .ok (0, size, s)

/-- `file_fsync` -/
def fileFsync (s : System τ) (t : τ) (fd : ℤ) : Except Stop (ℤ × System τ) :=
  match (s.table t).fd2file fd with
  | none => .ok (-E_INVAL, s)
  | some (_, f) => do
    let inodes ← s.inodes.vopFsync f.node
    .ok (0, { s with inodes := inodes })

/-- `file_getdirentry`: what it returns, the `dirent`, and the state. -/
def fileGetdirentry (s : System τ) (t : τ) (fd : ℤ) (d : Dirent) (entry : Option Mem) :
    Except Stop (ℤ × Dirent × System τ) :=
  match (s.table t).fd2file fd with
  | none => .ok (-E_INVAL, d, s)
  | some (_, f) => do
    let (ret, d, inodes) ← s.inodes.vopGetdirentry f.node d entry
    .ok (ret, d, { s with inodes := inodes })

/-- `fd_array_dup` of an entry to the entry `i` of the table `t`. -/
def fdArrayDup (s : System τ) (t : τ) (i : ℕ) (f : File Node) : System τ :=
  { s with inodes := (s.inodes.refInc f.node).openInc f.node }.setFd t i (some f)

/-- `file_dup` -/
def fileDup (s : System τ) (t : τ) (fd1 fd2 : ℤ) : ℤ × System τ :=
  match (s.table t).fd2file fd1 with
  | none => (-E_INVAL, s)
  | some (_, f) =>
    match (s.table t).fdArrayAlloc fd2 with
    | .error ret => (ret, s)
    | .ok i => (i, s.fdArrayDup t i f)

/-! ### The working directory -/

def refDec (s : System τ) (n : Node) : Except Stop (System τ) := do
  let inodes ← s.inodes.refDec n
  .ok { s with inodes := inodes }

/-- `vfs_set_curdir` -/
def vfsSetCurdir (s : System τ) (t : τ) (dir : Node) : Except Stop (ℤ × System τ) :=
  if (s.table t).pwd = some dir then .ok (0, s) else do
  s.inodes.vop dir .gettype
  if kind s.inodes.kernel dir ≠ .dir then .ok (-E_NOTDIR, s)
  else
    let old := (s.table t).pwd
    let s := { s with inodes := s.inodes.refInc dir }.setPwd t (some dir)
    match old with
    | none => .ok (0, s)
    | some n => do
      let s ← s.refDec n
      .ok (0, s)

/-- `vfs_chdir` -/
def vfsChdir (s : System τ) (t : τ) (a b : Alloc) (path : List UInt8) : Except Stop (ℤ × System τ) := do
  match ← (s.current t).vfsLookup a b path with
  | (.error ret, inodes) => .ok (ret, { s with inodes := inodes })
  | (.ok n, inodes) => do
    let (ret, s) ← { s with inodes := inodes }.vfsSetCurdir t n
    let s ← s.refDec n
    .ok (ret, s)

/-- `vfs_getcwd`, with as many rounds of the loop of `sfs_namefile` as it takes: what it returns, the
memory, and the state. -/
def vfsGetcwd (s : System τ) (t : τ) (allocs : ℕ → Alloc) (rounds : ℕ) (entry : Option Mem) (mem : Mem)
    (iob : Iobuf) : Except Stop (ℤ × Mem × System τ) := do
  match ← lift ((s.current t).kernel.vfsGetcwd allocs rounds entry mem iob) with
  | none => .error .running
  | some (ret, k, mem, _) => .ok (ret, mem, { s with inodes := { s.inodes with kernel := k } })

/-! ### Processes -/

/-- The loop of `dup_files` with `n` entries to go, the next one `i`. -/
def dupLoop (dst src : τ) : ℕ → ℕ → System τ → System τ
  | 0, _, s => s
  | n + 1, i, s =>
    match (s.table src).fdArray i with
    | some f => dupLoop dst src n (i + 1) (s.fdArrayDup dst i f)
    | none => dupLoop dst src n (i + 1) s

/-- `dup_files` -/
def dupFiles (s : System τ) (dst src : τ) : System τ :=
  let pwd := (s.table src).pwd
  let s := s.setPwd dst pwd
  let s := match pwd with
    | some n => { s with inodes := s.inodes.refInc n }
    | none => s
  dupLoop dst src Proc.FILES_STRUCT_NENTRY 0 s

/-- `files_create`, which gets memory at the address `dst`. -/
def filesCreate (s : System τ) (dst : τ) : System τ := s.setTable dst Table.empty

/-- `files_count_inc` -/
def filesCountInc (s : System τ) (t : τ) : System τ :=
  { s with filesCount := Function.update s.filesCount t (s.filesCount t + 1) }

/-- `copy_files` for a new process, which shares the table `t` or gets the one of `files_create`, whose
`kmalloc` returns `answer`. -/
def copyFiles (s : System τ) (t : τ) (share : Bool) (answer : Option τ) : ℤ × System τ :=
  if share then (0, s.filesCountInc t)
  else
    match answer with
    | none => (-E_NO_MEM, s)
    | some dst => (0, ((s.filesCreate dst).dupFiles dst t).filesCountInc dst)

/-- The loop of `files_destroy` and `files_closeall` with `n` entries to go, the next one `i`. -/
def closeLoop (t : τ) : ℕ → ℕ → System τ → Except Stop (System τ)
  | 0, _, s => .ok s
  | n + 1, i, s =>
    match (s.table t).fdArray i with
    | some f => do
      let s ← s.fdArrayClose t i f.node
      closeLoop t n (i + 1) s
    | none => closeLoop t n (i + 1) s

/-- `files_closeall` -/
def filesCloseall (s : System τ) (t : τ) : Except Stop (System τ) :=
  closeLoop t (Proc.FILES_STRUCT_NENTRY - 2) 2 s

/-- `files_destroy`.  The table is freed, with the pointer to its working directory. -/
def filesDestroy (s : System τ) (t : τ) : Except Stop (System τ) := do
  let s ← (match (s.table t).pwd with
    | some n => (s.setPwd t none).refDec n
    | none => .ok s)
  closeLoop t Proc.FILES_STRUCT_NENTRY 0 s

/-- `put_files` -/
def putFiles (s : System τ) (t : τ) : Except Stop (System τ) :=
  let s := { s with filesCount := Function.update s.filesCount t (s.filesCount t - 1) }
  if s.filesCount t = 0 then s.filesDestroy t else .ok s

end System

/-! ### Calls -/

/-- What a process can ask for. -/
inductive Call (τ : Type)
  | open (a b c : Alloc) (path : List UInt8) (flags : BitVec 32)
  | close (fd : ℤ)
  | read (fd : ℤ) (base : Mem) (len : UInt64) (drv : Inodes.Driver)
  | write (fd : ℤ) (base : Mem) (len : UInt64) (drv : Inodes.Driver)
  | seek (fd pos : ℤ) (whence : ℕ)
  | fstat (fd : ℤ)
  | fsync (fd : ℤ)
  | getdirentry (fd : ℤ) (d : Dirent) (entry : Option Mem)
  | dup (fd1 fd2 : ℤ)
  | chdir (a b : Alloc) (path : List UInt8)
  | getcwd (allocs : ℕ → Alloc) (rounds : ℕ) (entry : Option Mem) (mem : Mem) (iob : Iobuf)
  /-- `copy_files` of `do_fork` -/
  | fork (share : Bool) (answer : Option τ)
  /-- `files_closeall` of `do_execve` -/
  | exec
  /-- `put_files` of `do_exit` -/
  | exit

/-- The return value and the state after a call of a process with the table `t`. -/
def Call.run (s : System τ) (t : τ) : Call τ → Except Stop (ℤ × System τ)
  | .open a b c path flags => s.fileOpen t a b c path flags
  | .close fd => s.fileClose t fd
  | .read fd base len drv => (s.fileIo t fd base len false drv).map fun (ret, _, _, s) => (ret, s)
  | .write fd base len drv => (s.fileIo t fd base len true drv).map fun (ret, _, _, s) => (ret, s)
  | .seek fd pos whence => s.fileSeek t fd pos whence
  | .fstat fd => (s.fileFstat t fd).map fun (ret, _, s) => (ret, s)
  | .fsync fd => s.fileFsync t fd
  | .getdirentry fd d entry => (s.fileGetdirentry t fd d entry).map fun (ret, _, s) => (ret, s)
  | .dup fd1 fd2 => .ok (s.fileDup t fd1 fd2)
  | .chdir a b path => s.vfsChdir t a b path
  | .getcwd allocs rounds entry mem iob =>
    (s.vfsGetcwd t allocs rounds entry mem iob).map fun (ret, _, s) => (ret, s)
  | .fork share answer => .ok (s.copyFiles t share answer)
  | .exec => (s.filesCloseall t).map fun s => (0, s)
  | .exit => (s.putFiles t).map fun s => (0, s)

/-- The process has a table, and `files_create` makes one that is not in use. -/
def Call.Enabled (s : System τ) (t : τ) : Call τ → Prop
  | .fork _ (some dst) => 0 < s.filesCount t ∧ s.filesCount dst = 0
  | _ => 0 < s.filesCount t

end Ucore.Filesys
