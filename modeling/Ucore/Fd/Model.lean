import Ucore.Lib.Ledger
import Ucore.Proc.FilesStruct
import Ucore.Sfs.Descriptors

/-!
# File descriptors under concurrency (`lab8/kern/fs/file.c`, `lab8/kern/fs/fs.c`)

Any number of processes use tables of open files, `files_struct`s, which they may share.  A process
runs until it calls the file system (`vfs_open`, `vfs_close`, or an operation of the inode): there it
may be stopped for any time, and the call returns any value.  `Pc` says in which call a process is.

`log` records the calls that take a reference for an entry of a table, `vfs_open` and the increments
in `fd_array_dup`, and those that give it back, `vfs_close`.
-/

namespace Ucore.Fd

open Ledger Sfs
open Proc (FILES_STRUCT_NENTRY)

def NO_FD : ℤ := -0x9527

def E_BUSY : ℤ := 15

inductive Status
  | FD_NONE
  | FD_INIT
  | FD_OPENED
  | FD_CLOSED
  deriving DecidableEq, Repr

/-- `struct file`. -/
structure File (ν : Type) where
  status : Status
  readable : Bool
  writable : Bool
  fd : ℤ
  pos : ℤ
  node : Option ν
  openCount : ℕ

/-- An entry of `fd_array` after `fd_array_init`. -/
def File.init {ν : Type} (i : ℕ) : File ν := ⟨.FD_NONE, false, false, i, 0, none, 0⟩

/-- The functions with assertions. -/
inductive Assertion
  | getFdArray
  | fdArrayAlloc
  | fdArrayFree
  | fdArrayAcquire
  | fdArrayRelease
  | fdArrayOpen
  | fdArrayClose
  | fdArrayDup
  | filesCloseall
  | dupFiles
  | copyFiles
  deriving DecidableEq, Repr

/-- An entry of a table, `fd_array + i`. -/
abbrev Entry (τ : Type) := τ × ℕ

/-- The operation of the inode in which a process is, and what it does with the result. -/
inductive Op
  | read
  | write
  /-- `vop_fstat` of `file_seek` with `LSEEK_END` -/
  | seekEnd (pos : ℤ)
  | tryseek (pos : ℤ)
  | fstat
  | fsync
  | getdirentry
  deriving DecidableEq, Repr

/-- Where a process is. -/
inductive Pc (τ ν : Type)
  /-- in none of the functions of this module -/
  | user
  /-- `file_open`, in `vfs_open` -/
  | opening (e : Entry τ) (flags : BitVec 32)
  /-- `file_open`, in `vop_fstat`, with the node that `vfs_open` has returned -/
  | opened (e : Entry τ) (flags : BitVec 32) (node : ν)
  /-- `file_open`, in `vfs_close` after `vop_fstat` has failed -/
  | unopening (e : Entry τ)
  /-- in an operation on the node of an entry -/
  | using (e : Entry τ) (op : Op)
  /-- `fd_array_free`, in `vfs_close`; in `files_closeall`, `some i` is the next entry to look at -/
  | freeing (e : Entry τ) (next : Option ℕ)

/-- The processes `π`, the tables `τ` and the inodes `ν`. -/
structure State (π τ ν : Type) where
  file : Entry τ → File ν
  pwd : τ → Option ν
  filesCount : τ → ℕ
  filesp : π → Option τ
  pc : π → Pc τ ν
  log : List (Call (Entry τ) ν)

variable {π τ ν : Type} [DecidableEq π] [DecidableEq τ]

namespace State

def goto (p : π) (pc : Pc τ ν) (s : State π τ ν) : State π τ ν :=
  { s with pc := Function.update s.pc p pc }

def setFile (e : Entry τ) (f : File ν) (s : State π τ ν) : State π τ ν :=
  { s with file := Function.update s.file e f }

def record (c : Call (Entry τ) ν) (s : State π τ ν) : State π τ ν := { s with log := c :: s.log }

omit [DecidableEq τ] in
theorem goto_goto (p : π) (c c' : Pc τ ν) (s : State π τ ν) :
    (s.goto p c).goto p c' = s.goto p c' := by
  unfold goto
  rw [Function.update_idem]

omit [DecidableEq π] in
theorem setFile_setFile (e : Entry τ) (f f' : File ν) (s : State π τ ν) :
    (s.setFile e f).setFile e f' = s.setFile e f' := by
  unfold setFile
  rw [Function.update_idem]

omit [DecidableEq π] in
@[simp] theorem setFile_file (e : Entry τ) (f : File ν) (s : State π τ ν) :
    (s.setFile e f).file e = f := by
  unfold setFile
  exact Function.update_self _ _ _

omit [DecidableEq π] in
theorem setFile_file_of_ne {e e' : Entry τ} (h : e' ≠ e) (f : File ν) (s : State π τ ν) :
    (s.setFile e f).file e' = s.file e' := by
  unfold setFile
  exact Function.update_of_ne h _ _

/-! ### The table -/

/-- `get_fd_array`: the table of `current`. -/
def getFdArray (p : π) (s : State π τ ν) : Except Assertion τ :=
  match s.filesp p with
  | none => .error .getFdArray
  | some t => if 0 < s.filesCount t then .ok t else .error .getFdArray

def testfd (fd : ℤ) : Bool := 0 ≤ fd && fd < FILES_STRUCT_NENTRY

/-- The entry that `fd_array_alloc` takes, or an error code. -/
def fdArrayFind (t : τ) (fd : ℤ) (s : State π τ ν) : Except ℤ ℕ :=
  if fd = NO_FD then
    match (List.range FILES_STRUCT_NENTRY).find? fun i => (s.file (t, i)).status = .FD_NONE with
    | some i => .ok i
    | none => .error (-E_MAX_OPEN)
  else if testfd fd then
    if (s.file (t, fd.toNat)).status = .FD_NONE then .ok fd.toNat else .error (-E_BUSY)
  else .error (-E_INVAL)

/-- `fd_array_alloc`: the entry that is `FD_INIT` now, or an error code. -/
def fdArrayAlloc (p : π) (fd : ℤ) (s : State π τ ν) :
    Except Assertion (State π τ ν × Except ℤ (Entry τ)) := do
  let t ← s.getFdArray p
  match s.fdArrayFind t fd with
  | .error ret => .ok (s, .error ret)
  | .ok i =>
    if (s.file (t, i)).openCount = 0 then
      .ok (s.setFile (t, i) { s.file (t, i) with status := .FD_INIT, node := none }, .ok (t, i))
    else .error .fdArrayAlloc

/-- `fd_array_free` of an entry with the status `FD_INIT`. -/
def fdArrayFreeInit (e : Entry τ) (s : State π τ ν) : Except Assertion (State π τ ν) :=
  if (s.file e).status = .FD_INIT ∧ (s.file e).openCount = 0 then
    .ok (s.setFile e { s.file e with status := .FD_NONE })
  else .error .fdArrayFree

/-- `fd_array_free` of an entry with the status `FD_CLOSED`, until it is in `vfs_close`. -/
def fdArrayFree (p : π) (e : Entry τ) (next : Option ℕ) (s : State π τ ν) :
    Except Assertion (State π τ ν) :=
  match (s.file e).node with
  | none => .error .fdArrayFree
  | some n =>
    if (s.file e).status = .FD_CLOSED ∧ (s.file e).openCount = 0 then
      .ok ((s.record (.give e n)).goto p (.freeing e next))
    else .error .fdArrayFree

/-- `fd_array_acquire`, and the operation that follows. -/
def fdArrayAcquire (p : π) (e : Entry τ) (op : Op) (s : State π τ ν) :
    Except Assertion (State π τ ν) :=
  if (s.file e).status = .FD_OPENED then
    .ok ((s.setFile e { s.file e with openCount := (s.file e).openCount + 1 }).goto p (.using e op))
  else .error .fdArrayAcquire

/-- `fd_array_release` by a process whose operation has returned. -/
def fdArrayRelease (p : π) (e : Entry τ) (s : State π τ ν) : Except Assertion (State π τ ν) :=
  if (s.file e).status = .FD_OPENED ∨ (s.file e).status = .FD_CLOSED then
    if 0 < (s.file e).openCount then
      let f := { s.file e with openCount := (s.file e).openCount - 1 }
      let s := (s.setFile e f).goto p .user
      if f.openCount = 0 then s.fdArrayFree p e none else .ok s
    else .error .fdArrayRelease
  else .error .fdArrayRelease

/-- `fd_array_open`. -/
def fdArrayOpen (e : Entry τ) (s : State π τ ν) : Except Assertion (State π τ ν) :=
  if (s.file e).status = .FD_INIT ∧ (s.file e).node.isSome then
    .ok (s.setFile e
      { s.file e with status := .FD_OPENED, openCount := (s.file e).openCount + 1 })
  else .error .fdArrayOpen

/-- `fd_array_close`: the state, and whether the process is in `vfs_close` now. -/
def fdArrayClose (p : π) (e : Entry τ) (next : Option ℕ) (s : State π τ ν) :
    Except Assertion (State π τ ν × Bool) :=
  if (s.file e).status = .FD_OPENED ∧ 0 < (s.file e).openCount then
    let f := { s.file e with status := .FD_CLOSED, openCount := (s.file e).openCount - 1 }
    let s := s.setFile e f
    if f.openCount = 0 then (s.fdArrayFree p e next).map fun s => (s, true) else .ok (s, false)
  else .error .fdArrayClose

/-- `fd_array_dup` of `src` to `dst`. -/
def fdArrayDup (dst src : Entry τ) (s : State π τ ν) : Except Assertion (State π τ ν) :=
  match (s.file src).node with
  | none => .error .fdArrayDup
  | some n =>
    if (s.file dst).status = .FD_INIT ∧ (s.file src).status = .FD_OPENED then
      let f := { s.file dst with
        pos := (s.file src).pos
        readable := (s.file src).readable
        writable := (s.file src).writable
        node := some n }
      fdArrayOpen dst ((s.record (.take dst n)).setFile dst f)
    else .error .fdArrayDup

/-- `fd2file`: the entry of an open descriptor. -/
def fd2file (p : π) (fd : ℤ) (s : State π τ ν) : Except Assertion (Option (Entry τ)) :=
  if testfd fd then do
    let t ← s.getFdArray p
    if (s.file (t, fd.toNat)).status = .FD_OPENED ∧ (s.file (t, fd.toNat)).fd = fd then
      .ok (some (t, fd.toNat))
    else .ok none
  else .ok none

/-! ### Opening -/

/-- `file_open`, until it is in `vfs_open`. -/
def fileOpen (p : π) (flags : BitVec 32) (s : State π τ ν) : Except Assertion (State π τ ν) :=
  match accessMode flags with
  | none => .ok s
  | some _ => do
    match ← s.fdArrayAlloc p NO_FD with
    | (s, .error _) => .ok s
    | (s, .ok e) => .ok (s.goto p (.opening e flags))

/-- The end of `file_open`, at the position `pos`. -/
def fileOpenEnd (p : π) (e : Entry τ) (flags : BitVec 32) (n : ν) (pos : ℤ) (s : State π τ ν) :
    Except Assertion (State π τ ν) :=
  let f := { s.file e with
    pos := pos
    node := some n
    readable := flags &&& O_ACCMODE != O_WRONLY
    writable := flags &&& O_ACCMODE != O_RDONLY }
  (s.setFile e f).fdArrayOpen e |>.map fun s => s.goto p .user

/-- `file_open` after `vfs_open`, which has returned a node or an error. -/
def fileOpenVfs (p : π) (e : Entry τ) (flags : BitVec 32) (node : Option ν) (s : State π τ ν) :
    Except Assertion (State π τ ν) :=
  match node with
  | none => (s.fdArrayFreeInit e).map fun s => s.goto p .user
  | some n =>
    let s := s.record (.take e n)
    if testFlag flags O_APPEND then
      .ok ((s.setFile e { s.file e with pos := 0 }).goto p (.opened e flags n))
    else s.fileOpenEnd p e flags n 0

/-- `file_open` after `vop_fstat`, which has returned a size or an error. -/
def fileOpenStat (p : π) (e : Entry τ) (flags : BitVec 32) (n : ν) (size : Option ℕ)
    (s : State π τ ν) : Except Assertion (State π τ ν) :=
  match size with
  | none => .ok ((s.record (.give e n)).goto p (.unopening e))
  | some size => s.fileOpenEnd p e flags n size

/-- `file_open` after the `vfs_close` of its error path. -/
def fileOpenUndone (p : π) (e : Entry τ) (s : State π τ ν) : Except Assertion (State π τ ν) :=
  (s.fdArrayFreeInit e).map fun s => s.goto p .user

/-! ### Operations on an open descriptor -/

/-- An operation on the descriptor `fd`, until it is in the operation of the inode.  `allowed` is its
check of the access mode. -/
def fileOp (p : π) (fd : ℤ) (op : Op) (allowed : File ν → Bool) (s : State π τ ν) :
    Except Assertion (State π τ ν) := do
  match ← s.fd2file p fd with
  | none => .ok s
  | some e => if allowed (s.file e) then s.fdArrayAcquire p e op else .ok s

/-- `file_read`. -/
def fileRead (p : π) (fd : ℤ) (s : State π τ ν) : Except Assertion (State π τ ν) :=
  s.fileOp p fd .read fun f => f.readable

/-- `file_write`. -/
def fileWrite (p : π) (fd : ℤ) (s : State π τ ν) : Except Assertion (State π τ ν) :=
  s.fileOp p fd .write fun f => f.writable

/-- `file_fstat`. -/
def fileFstat (p : π) (fd : ℤ) (s : State π τ ν) : Except Assertion (State π τ ν) :=
  s.fileOp p fd .fstat fun _ => true

/-- `file_fsync`. -/
def fileFsync (p : π) (fd : ℤ) (s : State π τ ν) : Except Assertion (State π τ ν) :=
  s.fileOp p fd .fsync fun _ => true

/-- `file_getdirentry`. -/
def fileGetdirentry (p : π) (fd : ℤ) (s : State π τ ν) : Except Assertion (State π τ ν) :=
  s.fileOp p fd .getdirentry fun _ => true

/-- `file_seek`.  It calls `vop_fstat` for `LSEEK_END`, and for an unknown `whence` no operation. -/
def fileSeek (p : π) (fd pos : ℤ) (whence : ℕ) (s : State π τ ν) :
    Except Assertion (State π τ ν) := do
  match ← s.fd2file p fd with
  | none => .ok s
  | some e =>
    match whence with
    | 0 => s.fdArrayAcquire p e (.tryseek pos)
    | 1 => s.fdArrayAcquire p e (.tryseek (pos + (s.file e).pos))
    | 2 => s.fdArrayAcquire p e (.seekEnd pos)
    | _ => do
      let s ← s.fdArrayAcquire p e (.tryseek pos)
      s.fdArrayRelease p e

/-- After an operation of the inode, which has returned `ret`; `n` is the number of bytes copied, or
the size. -/
def opReturned (p : π) (e : Entry τ) (op : Op) (ret : ℤ) (n : ℕ) (s : State π τ ν) :
    Except Assertion (State π τ ν) :=
  match op with
  | .read | .write =>
    if (s.file e).status = .FD_OPENED then
      (s.setFile e { s.file e with pos := (s.file e).pos + n }).fdArrayRelease p e
    else s.fdArrayRelease p e
  | .seekEnd pos =>
    if ret = 0 then .ok (s.goto p (.using e (.tryseek (pos + n)))) else s.fdArrayRelease p e
  | .tryseek pos =>
    if ret = 0 then (s.setFile e { s.file e with pos := pos }).fdArrayRelease p e
    else s.fdArrayRelease p e
  | .fstat | .fsync | .getdirentry => s.fdArrayRelease p e

/-! ### Closing and copying -/

/-- `file_close`, until it is in `vfs_close` or returns. -/
def fileClose (p : π) (fd : ℤ) (s : State π τ ν) : Except Assertion (State π τ ν) := do
  match ← s.fd2file p fd with
  | none => .ok s
  | some e => (s.fdArrayClose p e none).map Prod.fst

/-- The loop of `files_closeall` with `n` entries to go, the next one `i`. -/
def closeallLoop (p : π) (t : τ) : ℕ → ℕ → State π τ ν → Except Assertion (State π τ ν)
  | 0, _, s => .ok s
  | n + 1, i, s =>
    if (s.file (t, i)).status = .FD_OPENED then do
      let (s, inside) ← s.fdArrayClose p (t, i) (some (i + 1))
      if inside then .ok s else closeallLoop p t n (i + 1) s
    else closeallLoop p t n (i + 1) s

/-- `files_closeall` of the table of `current`, as `do_execve` calls it. -/
def filesCloseall (p : π) (s : State π τ ν) : Except Assertion (State π τ ν) :=
  match s.filesp p with
  | none => .error .filesCloseall
  | some t =>
    if 0 < s.filesCount t then closeallLoop p t (FILES_STRUCT_NENTRY - 2) 2 s
    else .error .filesCloseall

/-- `fd_array_free` after `vfs_close`. -/
def freed (p : π) (e : Entry τ) (next : Option ℕ) (s : State π τ ν) :
    Except Assertion (State π τ ν) :=
  let s := (s.setFile e { s.file e with status := .FD_NONE }).goto p .user
  match next with
  | none => .ok s
  | some i => closeallLoop p e.1 (FILES_STRUCT_NENTRY - i) i s

/-- `file_dup`. -/
def fileDup (p : π) (fd1 fd2 : ℤ) (s : State π τ ν) : Except Assertion (State π τ ν) := do
  match ← s.fd2file p fd1 with
  | none => .ok s
  | some e1 =>
    match ← s.fdArrayAlloc p fd2 with
    | (s, .error _) => .ok s
    | (s, .ok e2) => s.fdArrayDup e2 e1

/-- `files_create`, which gets the table `t`. -/
def filesCreate (t : τ) (s : State π τ ν) : State π τ ν :=
  { s with
    file := fun e => if e.1 = t then File.init e.2 else s.file e
    pwd := Function.update s.pwd t none
    filesCount := Function.update s.filesCount t 0 }

/-- The loop of `dup_files` with `n` entries to go, the next one `i`. -/
def dupLoop (dst src : τ) : ℕ → ℕ → State π τ ν → Except Assertion (State π τ ν)
  | 0, _, s => .ok s
  | n + 1, i, s =>
    if (s.file (src, i)).status = .FD_OPENED then do
      let s := s.setFile (dst, i) { s.file (dst, i) with status := .FD_INIT }
      let s ← s.fdArrayDup (dst, i) (src, i)
      dupLoop dst src n (i + 1) s
    else dupLoop dst src n (i + 1) s

/-- `dup_files`. -/
def dupFiles (dst src : τ) (s : State π τ ν) : Except Assertion (State π τ ν) :=
  if s.filesCount dst = 0 ∧ 0 < s.filesCount src then
    dupLoop dst src FILES_STRUCT_NENTRY 0 { s with pwd := Function.update s.pwd dst (s.pwd src) }
  else .error .dupFiles

/-- `files_count_inc` of the table `t` for the new process `c`. -/
def addProcess (c : π) (t : τ) (s : State π τ ν) : State π τ ν :=
  { s with
    filesCount := Function.update s.filesCount t (s.filesCount t + 1)
    filesp := Function.update s.filesp c (some t) }

/-- `copy_files` for the new process `c`: it shares the table of `current`, or gets the table that
`files_create` makes at the address `answer`. -/
def copyFiles (p c : π) (share : Bool) (answer : Option τ) (s : State π τ ν) :
    Except Assertion (State π τ ν) :=
  match s.filesp p with
  | none => .error .copyFiles
  | some src =>
    if share then .ok (s.addProcess c src)
    else
      match answer with
      | none => .ok s
      | some t => ((s.filesCreate t).dupFiles t src).map fun s => s.addProcess c t

end State

/-- `p` has a table and is in none of the functions of this module. -/
def State.Idle (p : π) (s : State π τ ν) : Prop := s.pc p = .user ∧ s.filesp p ≠ none

/-- Process `p` runs until it calls the file system. -/
inductive Step (p : π) (s : State π τ ν) : Except Assertion (State π τ ν) → Prop
  | fileOpen (flags : BitVec 32) (hp : s.Idle p) : Step p s (s.fileOpen p flags)
  | fileOpenVfs (e : Entry τ) (flags : BitVec 32) (node : Option ν)
      (hp : s.pc p = .opening e flags) : Step p s (s.fileOpenVfs p e flags node)
  | fileOpenStat (e : Entry τ) (flags : BitVec 32) (n : ν) (size : Option ℕ)
      (hp : s.pc p = .opened e flags n) : Step p s (s.fileOpenStat p e flags n size)
  | fileOpenUndone (e : Entry τ) (hp : s.pc p = .unopening e) : Step p s (s.fileOpenUndone p e)
  | fileRead (fd : ℤ) (hp : s.Idle p) : Step p s (s.fileRead p fd)
  | fileWrite (fd : ℤ) (hp : s.Idle p) : Step p s (s.fileWrite p fd)
  | fileSeek (fd pos : ℤ) (whence : ℕ) (hp : s.Idle p) : Step p s (s.fileSeek p fd pos whence)
  | fileFstat (fd : ℤ) (hp : s.Idle p) : Step p s (s.fileFstat p fd)
  | fileFsync (fd : ℤ) (hp : s.Idle p) : Step p s (s.fileFsync p fd)
  | fileGetdirentry (fd : ℤ) (hp : s.Idle p) : Step p s (s.fileGetdirentry p fd)
  | opReturned (e : Entry τ) (op : Op) (ret : ℤ) (n : ℕ) (hp : s.pc p = .using e op) :
      Step p s (s.opReturned p e op ret n)
  | fileClose (fd : ℤ) (hp : s.Idle p) : Step p s (s.fileClose p fd)
  | filesCloseall (hp : s.Idle p) : Step p s (s.filesCloseall p)
  | freed (e : Entry τ) (next : Option ℕ) (hp : s.pc p = .freeing e next) :
      Step p s (s.freed p e next)
  | fileDup (fd1 fd2 : ℤ) (hp : s.Idle p) : Step p s (s.fileDup p fd1 fd2)
  | copyFiles (c : π) (share : Bool) (answer : Option τ) (hp : s.Idle p) (hc : s.filesp c = none)
      (hanswer : ∀ t, answer = some t → s.filesCount t = 0) :
      Step p s (s.copyFiles p c share answer)

/-- Some process takes a step. -/
def Next (s s' : State π τ ν) : Prop := ∃ p, Step p s (.ok s')

/-- No descriptor is open and no process is in a call.  The processes share the tables in any way. -/
structure Initial (s : State π τ ν) : Prop where
  file : ∀ t i, s.file (t, i) = File.init i
  pc : ∀ p, s.pc p = .user
  log : s.log = []
  filesCount : ∀ p t, s.filesp p = some t → 0 < s.filesCount t

end Ucore.Fd
