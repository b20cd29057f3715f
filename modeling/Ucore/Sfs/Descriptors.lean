import Ucore.Lib.Transition
import Ucore.Sfs.Calls

/-!
# Descriptors of regular files (`lab8/kern/fs/file.c`, `vfs/vfsfile.c`)

`Files ι δ` is a file system with regular files `ι` and open descriptors `δ`, of any processes.  The
position lives in the descriptor, the size and the blocks in the inode.  The calls are the functions
of `file.c`; `fileOpen` takes the inode that `vfs_lookup` finds and the entry that `fd_array_alloc`
finds.

Every call makes at most one call of an inode operation (`FileOp.nodeCall`), and this is all that it
does to the file system: `FileOp.run_spec`.
-/

namespace Ucore.Sfs

open Memory Relation

variable {ι δ : Type}

def O_WRONLY : BitVec 32 := 1

def O_RDWR : BitVec 32 := 2

def O_CREAT : BitVec 32 := 0x00000004

def O_EXCL : BitVec 32 := 0x00000008

def O_TRUNC : BitVec 32 := 0x00000010

def O_APPEND : BitVec 32 := 0x00000020

def O_ACCMODE : BitVec 32 := 3

def O_RDONLY : BitVec 32 := 0

def E_MAX_OPEN : ℤ := 22

def E_EXISTS : ℤ := 23

/-- `open_flags & flag`. -/
def testFlag (flags flag : BitVec 32) : Bool := flags &&& flag != 0

/-- A `struct file` with the status `FD_OPENED`. -/
structure File (ι : Type) where
  node : ι
  pos : ℤ
  readable : Bool
  writable : Bool

structure Files (ι δ : Type) where
  image : Image ι
  fd : δ → Option (File ι)

section

variable [DecidableEq ι] [DecidableEq δ]

def Files.setFd (s : Files ι δ) (d : δ) (file : File ι) : Files ι δ :=
  { s with fd := Function.update s.fd d (some file) }

/-- `file_write`: the return value, `*copied_store`, and the state. -/
def fileWrite (s : Files ι δ) (d : δ) (base : Mem) (len : UInt64) :
    Except Panic (ℤ × ℕ × Files ι δ) :=
  match s.fd d with
  | none => .ok (-E_INVAL, 0, s)
  | some file =>
    if file.writable = false then .ok (-E_INVAL, 0, s) else do
    let io ← sfsIoNolock s.image.fs (s.image.inode file.node) base file.pos len.toNat true
    let s := { s with image := s.image.set file.node io.fs io.sin }
    .ok (io.ret, io.alen, s.setFd d { file with pos := file.pos + io.alen })

/-- `file_read`: the return value, `*copied_store`, the buffer, and the state. -/
def fileRead (s : Files ι δ) (d : δ) (base : Mem) (len : UInt64) :
    Except Panic (ℤ × ℕ × Mem × Files ι δ) :=
  match s.fd d with
  | none => .ok (-E_INVAL, 0, base, s)
  | some file =>
    if file.readable = false then .ok (-E_INVAL, 0, base, s) else do
    let io ← sfsIoNolock s.image.fs (s.image.inode file.node) base file.pos len.toNat false
    let s := { s with image := s.image.set file.node io.fs io.sin }
    .ok (io.ret, io.alen, io.buf, s.setFd d { file with pos := file.pos + io.alen })

/-- The position that `file_seek` asks for, or `none` for an unknown `whence`. -/
def seekTarget (pos : ℤ) (whence : ℕ) (filePos : ℤ) (size : ℕ) : Option ℤ :=
  match whence with
  | 0 => some pos
  | 1 => some ((pos + filePos).bmod (2 ^ 64))
  | 2 => some ((pos + size).bmod (2 ^ 64))
  | _ => none

/-- `file_seek`. -/
def fileSeek (s : Files ι δ) (d : δ) (pos : ℤ) (whence : ℕ) : Except Panic (ℤ × Files ι δ) :=
  match s.fd d with
  | none => .ok (-E_INVAL, s)
  | some file =>
    match seekTarget pos whence file.pos (s.image.inode file.node).din.size with
    | none => .ok (-E_INVAL, s)
    | some pos => do
      let (ret, fs, sin) ← sfsTryseek s.image.fs (s.image.inode file.node) pos
      let s := { s with image := s.image.set file.node fs sin }
      if ret = 0 then .ok (0, s.setFd d { file with pos := pos }) else .ok (ret, s)

/-- `can_write` of `vfs_open`, or `none` for `-E_INVAL`. -/
def accessMode (flags : BitVec 32) : Option Bool :=
  if flags &&& O_ACCMODE = O_RDONLY then some false
  else if flags &&& O_ACCMODE = O_WRONLY ∨ flags &&& O_ACCMODE = O_RDWR then some true
  else none

/-- `vfs_open` of a regular file that is there: the checks before `vop_truncate`. -/
def vfsOpenCheck (flags : BitVec 32) (canWrite : Bool) : ℤ :=
  if testFlag flags O_TRUNC = true ∧ canWrite = false then -E_INVAL
  else if testFlag flags O_EXCL = true ∧ testFlag flags O_CREAT = true then -E_EXISTS
  else 0

/-- `file_open` of the regular file `j` at the free entry `d`: an error code or the descriptor. -/
def fileOpen (s : Files ι δ) (d : δ) (j : ι) (flags : BitVec 32) :
    Except Panic (Except ℤ δ × Files ι δ) :=
  match accessMode flags with
  | none => .ok (.error (-E_INVAL), s)
  | some canWrite =>
    if (s.fd d).isSome then .ok (.error (-E_MAX_OPEN), s) else
    if vfsOpenCheck flags canWrite ≠ 0 then .ok (.error (vfsOpenCheck flags canWrite), s) else do
    let (ret, fs, sin) ←
      (if testFlag flags O_TRUNC = true ∨ testFlag flags O_CREAT = true then
        sfsTruncfile s.image.fs (s.image.inode j) 0
      else .ok (0, s.image.fs, s.image.inode j))
    let s := { s with image := s.image.set j fs sin }
    if ret ≠ 0 then .ok (.error ret, s) else
    let pos : ℤ := if testFlag flags O_APPEND then sin.din.size else 0
    .ok (.ok d, s.setFd d ⟨j, pos, flags &&& O_ACCMODE != O_WRONLY, canWrite⟩)

/-- A call on a descriptor. -/
inductive FileOp (ι δ : Type)
  | write (d : δ) (base : Mem) (len : UInt64)
  | read (d : δ) (base : Mem) (len : UInt64)
  | seek (d : δ) (pos : ℤ) (whence : ℕ)
  | open (d : δ) (j : ι) (flags : BitVec 32)

/-- The error code of a call, or 0. -/
def errorCode : Except ℤ δ → ℤ
  | .error ret => ret
  | .ok _ => 0

/-- The error code or 0, and the state after a call. -/
def FileOp.run (s : Files ι δ) : FileOp ι δ → Except Panic (ℤ × Files ι δ)
  | .write d base len => (fileWrite s d base len).map fun (ret, _, s) => (ret, s)
  | .read d base len => (fileRead s d base len).map fun (ret, _, _, s) => (ret, s)
  | .seek d pos whence => fileSeek s d pos whence
  | .open d j flags => (fileOpen s d j flags).map fun (result, s) => (errorCode result, s)

theorem FileOp.run_open (s : Files ι δ) (d : δ) (j : ι) (flags : BitVec 32) :
    FileOp.run s (.open d j flags) = match accessMode flags with
    | none => .ok (-E_INVAL, s)
    | some canWrite =>
      if (s.fd d).isSome then .ok (-E_MAX_OPEN, s) else
      if vfsOpenCheck flags canWrite ≠ 0 then .ok (vfsOpenCheck flags canWrite, s) else
      (if testFlag flags O_TRUNC = true ∨ testFlag flags O_CREAT = true then
        sfsTruncfile s.image.fs (s.image.inode j) 0
      else .ok (0, s.image.fs, s.image.inode j)) >>= fun (ret, fs, sin) =>
      let s := { s with image := s.image.set j fs sin }
      if ret ≠ 0 then .ok (ret, s) else
      let pos : ℤ := if testFlag flags O_APPEND then sin.din.size else 0
      .ok (0, s.setFd d ⟨j, pos, flags &&& O_ACCMODE != O_WRONLY, canWrite⟩) := by
  rw [FileOp.run, fileOpen]
  cases accessMode flags with
  | none => rfl
  | some canWrite =>
    dsimp only
    split
    · rfl
    split
    · rfl
    cases (if testFlag flags O_TRUNC = true ∨ testFlag flags O_CREAT = true then
      sfsTruncfile s.image.fs (s.image.inode j) 0 else .ok (0, s.image.fs, s.image.inode j)) with
    | error p => rfl
    | ok r =>
      obtain ⟨ret, fs, sin⟩ := r
      rw [ok_bind, ok_bind]
      dsimp only
      split
      · rfl
      · rfl

end

/-! ### The operation on the inode -/

/-- A call of an inode operation of a regular file. -/
inductive NodeCall
  | write (base : Mem) (pos : ℤ) (len : UInt64)
  | read (base : Mem) (pos : ℤ) (len : UInt64)
  | tryseek (pos : ℤ)
  | truncate (len : ℤ)

def NodeCall.run (fs : Fs) (sin : Inode) : NodeCall → Except Panic (ℤ × Fs × Inode)
  | .write base pos len =>
    (sfsIoNolock fs sin base pos len.toNat true).map fun io => (io.ret, io.fs, io.sin)
  | .read base pos len =>
    (sfsIoNolock fs sin base pos len.toNat false).map fun io => (io.ret, io.fs, io.sin)
  | .tryseek pos => sfsTryseek fs sin pos
  | .truncate len => sfsTruncfile fs sin len

/-- The inode operation that a call makes, and the inode. -/
def FileOp.nodeCall (s : Files ι δ) : FileOp ι δ → Option (ι × NodeCall)
  | .write d base len => (s.fd d).bind fun file =>
    if file.writable = true then some (file.node, .write base file.pos len) else none
  | .read d base len => (s.fd d).bind fun file =>
    if file.readable = true then some (file.node, .read base file.pos len) else none
  | .seek d pos whence => (s.fd d).bind fun file =>
    (seekTarget pos whence file.pos (s.image.inode file.node).din.size).map fun p =>
      (file.node, .tryseek p)
  | .open d j flags => (accessMode flags).bind fun canWrite =>
    if (s.fd d).isSome = false ∧ vfsOpenCheck flags canWrite = 0 ∧
        (testFlag flags O_TRUNC = true ∨ testFlag flags O_CREAT = true) then some (j, .truncate 0)
    else none

/-- Only `file_write` writes. -/
theorem FileOp.eq_write {s : Files ι δ} {op : FileOp ι δ} {j : ι} {base : Mem} {pos : ℤ} {len : UInt64}
    (h : op.nodeCall s = some (j, .write base pos len)) : ∃ d, op = .write d base len := by
  cases op with
  | write d base' len' =>
    rw [FileOp.nodeCall] at h
    obtain ⟨file, -, hf⟩ := Option.bind_eq_some_iff.mp h
    by_cases hw : file.writable = true
    · rw [if_pos hw] at hf
      cases hf
      exact ⟨d, rfl⟩
    · rw [if_neg hw] at hf
      nomatch hf
  | read d base' len' =>
    rw [FileOp.nodeCall] at h
    obtain ⟨file, -, hf⟩ := Option.bind_eq_some_iff.mp h
    by_cases hr : file.readable = true
    · rw [if_pos hr] at hf
      nomatch hf
    · rw [if_neg hr] at hf
      nomatch hf
  | seek d p whence =>
    rw [FileOp.nodeCall] at h
    obtain ⟨file, -, hf⟩ := Option.bind_eq_some_iff.mp h
    obtain ⟨q, -, hq⟩ := Option.map_eq_some_iff.mp hf
    nomatch hq
  | «open» d l flags =>
    rw [FileOp.nodeCall] at h
    obtain ⟨canWrite, -, hf⟩ := Option.bind_eq_some_iff.mp h
    split at hf
    · nomatch hf
    · nomatch hf

variable [DecidableEq ι] [DecidableEq δ] {s s' : Files ι δ} {j : ι} {c : NodeCall}

theorem Image.set_self (s : Image ι) (j : ι) : s.set j s.fs (s.inode j) = s := by
  rw [Image.set, Function.update_eq_self]

/-- What a call does to the file system, given the inode operation that it makes. -/
inductive Effect (s : Files ι δ) :
    Option (ι × NodeCall) → Except Panic (ℤ × Files ι δ) → Prop
  | idle {ret : ℤ} {s' : Files ι δ} (h : s'.image = s.image) : Effect s none (.ok (ret, s'))
  | stops {j : ι} {c : NodeCall} {p : Panic}
      (h : c.run s.image.fs (s.image.inode j) = .error p) : Effect s (some (j, c)) (.error p)
  | returns {j : ι} {c : NodeCall} {ret : ℤ} {fs : Fs} {sin : Inode} {s' : Files ι δ}
      (h : c.run s.image.fs (s.image.inode j) = .ok (ret, fs, sin))
      (himage : s'.image = s.image.set j fs sin) : Effect s (some (j, c)) (.ok (ret, s'))

theorem effect_write (s : Files ι δ) (d : δ) (base : Mem) (len : UInt64) :
    Effect s ((FileOp.write d base len : FileOp ι δ).nodeCall s)
      ((FileOp.write d base len : FileOp ι δ).run s) := by
  rw [FileOp.nodeCall, FileOp.run, fileWrite]
  cases s.fd d with
  | none => exact .idle rfl
  | some file =>
    rw [Option.bind_some]
    dsimp only
    cases hw : file.writable with
    | false =>
      rw [if_neg Bool.false_ne_true, if_pos rfl]
      exact .idle rfl
    | true =>
      rw [if_pos rfl, if_neg Bool.false_ne_true.symm]
      cases hio : sfsIoNolock s.image.fs (s.image.inode file.node) base file.pos len.toNat true with
      | error p => exact .stops (by rw [NodeCall.run, hio]; rfl)
      | ok io => exact .returns (by rw [NodeCall.run, hio]; rfl) rfl

theorem effect_read (s : Files ι δ) (d : δ) (base : Mem) (len : UInt64) :
    Effect s ((FileOp.read d base len : FileOp ι δ).nodeCall s)
      ((FileOp.read d base len : FileOp ι δ).run s) := by
  rw [FileOp.nodeCall, FileOp.run, fileRead]
  cases s.fd d with
  | none => exact .idle rfl
  | some file =>
    rw [Option.bind_some]
    dsimp only
    cases hr : file.readable with
    | false =>
      rw [if_neg Bool.false_ne_true, if_pos rfl]
      exact .idle rfl
    | true =>
      rw [if_pos rfl, if_neg Bool.false_ne_true.symm]
      cases hio : sfsIoNolock s.image.fs (s.image.inode file.node) base file.pos len.toNat false with
      | error p => exact .stops (by rw [NodeCall.run, hio]; rfl)
      | ok io => exact .returns (by rw [NodeCall.run, hio]; rfl) rfl

theorem effect_seek (s : Files ι δ) (d : δ) (pos : ℤ) (whence : ℕ) :
    Effect s ((FileOp.seek d pos whence : FileOp ι δ).nodeCall s)
      ((FileOp.seek d pos whence : FileOp ι δ).run s) := by
  rw [FileOp.nodeCall, FileOp.run, fileSeek]
  cases s.fd d with
  | none => exact .idle rfl
  | some file =>
    rw [Option.bind_some]
    dsimp only
    cases seekTarget pos whence file.pos (s.image.inode file.node).din.size with
    | none => exact .idle rfl
    | some p =>
      dsimp only
      cases ht : sfsTryseek s.image.fs (s.image.inode file.node) p with
      | error e => exact .stops ht
      | ok r =>
        obtain ⟨ret, fs, sin⟩ := r
        rw [ok_bind]
        dsimp only
        by_cases hret : ret = 0
        · rw [if_pos hret]
          rw [hret] at ht
          exact .returns ht rfl
        · rw [if_neg hret]
          exact .returns ht rfl

theorem effect_open (s : Files ι δ) (d : δ) (j : ι) (flags : BitVec 32) :
    Effect s ((FileOp.open d j flags : FileOp ι δ).nodeCall s)
      ((FileOp.open d j flags : FileOp ι δ).run s) := by
  rw [FileOp.nodeCall, FileOp.run_open]
  cases accessMode flags with
  | none => exact .idle rfl
  | some canWrite =>
    rw [Option.bind_some]
    dsimp only
    by_cases hfd : (s.fd d).isSome = true
    · rw [if_pos hfd, if_neg fun h => Bool.false_ne_true (h.1.symm.trans hfd)]
      exact .idle rfl
    · rw [if_neg hfd]
      by_cases hcheck : vfsOpenCheck flags canWrite ≠ 0
      · rw [if_pos hcheck, if_neg fun h => hcheck h.2.1]
        exact .idle rfl
      · rw [if_neg hcheck]
        by_cases ht : testFlag flags O_TRUNC = true ∨ testFlag flags O_CREAT = true
        · rw [if_pos ht, if_pos ⟨Bool.eq_false_of_not_eq_true hfd, not_not.mp hcheck, ht⟩]
          cases htr : sfsTruncfile s.image.fs (s.image.inode j) 0 with
          | error e => exact .stops htr
          | ok r =>
            obtain ⟨ret, fs, sin⟩ := r
            rw [ok_bind]
            dsimp only
            by_cases hret : ret ≠ 0
            · rw [if_pos hret]
              exact .returns htr rfl
            · rw [if_neg hret]
              rw [not_not.mp hret] at htr
              exact .returns htr rfl
        · rw [if_neg ht, if_neg fun h => ht h.2.2, ok_bind]
          dsimp only
          rw [if_neg (not_not.mpr rfl)]
          exact .idle (s.image.set_self j)

/-- **All that a call does to the file system** is its inode operation. -/
theorem FileOp.effect (op : FileOp ι δ) (s : Files ι δ) : Effect s (op.nodeCall s) (op.run s) := by
  cases op with
  | write d base len => exact effect_write s d base len
  | read d base len => exact effect_read s d base len
  | seek d pos whence => exact effect_seek s d pos whence
  | «open» d j flags => exact effect_open s d j flags

end Ucore.Sfs
