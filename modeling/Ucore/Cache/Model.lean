import Mathlib.Logic.Function.Basic
import Mathlib.Data.Nat.Basic
import Ucore.Sync.Semaphore

/-!
# The inode cache of SFS (`lab8/kern/fs/sfs/sfs_inode.c`, `lab8/kern/fs/vfs/inode.c`)

Any number of processes load inodes, copy and drop references to them, and reclaim an inode when a
count of references reaches zero.  A process runs until it blocks on a semaphore; the file system
lock `fs_sem` is modelled as `sem.c` has it, and at `sfs_rbuf` and `vop_fsync`, which wait for other
semaphores, a process may be stopped for any time.

A reference is a variable somewhere in the kernel that holds the address of an inode; `held` has all
of them.  An address from `kmalloc` is any address not in use, so addresses are used again.

The link counts of inodes are positive: `sfs_load_inode` asserts it and nothing here changes them.
So `sfs_reclaim` has no branch for a link count of zero.
-/

namespace Ucore.Cache

open Ucore.Sync

def GOLDEN_RATIO_PRIME_32 : ℕ := 0x9e370001

def SFS_HLIST_SHIFT : ℕ := 10

/-- `hash32`. -/
def hash32 (val bits : ℕ) : ℕ := val * GOLDEN_RATIO_PRIME_32 % 2 ^ 32 / 2 ^ (32 - bits)

/-- `sin_hashfn`. -/
def sinHashfn (ino : ℕ) : ℕ := hash32 ino SFS_HLIST_SHIFT

/-- `struct inode` with its `struct sfs_inode`. -/
structure Inode where
  ino : ℕ
  refCount : ℕ
  reclaimCount : ℕ
  dirty : Bool
  nlinks : ℕ
  nlinks_pos : 0 < nlinks

/-- `lookup_sfs_nolock`, what it does to the inode it finds. -/
def Inode.found (i : Inode) : Inode :=
  { i with
    refCount := i.refCount + 1
    reclaimCount := if i.refCount + 1 = 1 then i.reclaimCount + 1 else i.reclaimCount }

/-- The assertions on the way, and the access to memory that is not an inode. -/
inductive Assertion
  | blockInuse
  | nlinks
  | refCountPos
  | reclaimCountPos
  | refCountZero
  | notAnInode
  deriving DecidableEq, Repr

/-- What a process is doing. -/
inductive Pc (ν : Type*)
  /-- nothing of this module -/
  | user
  /-- `sfs_load_inode`, in `lock_sfs_fs` -/
  | loading (ino : ℕ)
  /-- `sfs_load_inode`, in `sfs_rbuf` -/
  | reading (ino : ℕ)
  /-- `sfs_reclaim`, in `lock_sfs_fs` -/
  | reclaiming (node : ν)
  /-- `sfs_reclaim`, in `vop_fsync` -/
  | syncing (node : ν)
  deriving DecidableEq

/-- The processes `π`, the addresses of inodes `ν` and the variables `κ` that hold references. -/
structure State (π ν κ : Type*) where
  fsSem : Semaphore π
  inode : ν → Option Inode
  inodeList : List ν
  hashList : ℕ → List ν
  pc : π → Pc ν
  held : κ → Option ν

variable {π ν κ : Type*} [DecidableEq π] [DecidableEq ν] [DecidableEq κ]

/-- The state after `sfs_do_mount`. -/
def State.mounted : State π ν κ :=
  ⟨semInit 1, fun _ => none, [], fun _ => [], fun _ => .user, fun _ => none⟩

namespace State

def goto (p : π) (pc : Pc ν) (s : State π ν κ) : State π ν κ :=
  { s with pc := Function.update s.pc p pc }

def setInode (n : ν) (i : Option Inode) (s : State π ν κ) : State π ν κ :=
  { s with inode := Function.update s.inode n i }

/-- `*node_store = node`, or an assignment of `NULL`. -/
def store (k : κ) (node : Option ν) (s : State π ν κ) : State π ν κ :=
  { s with held := Function.update s.held k node }

/-- `lock_sfs_fs`, until it returns or sleeps. -/
def lockSfsFs (p : π) (s : State π ν κ) : State π ν κ := { s with fsSem := s.fsSem.down p }

/-- `unlock_sfs_fs`. -/
def unlockSfsFs (s : State π ν κ) : State π ν κ := { s with fsSem := s.fsSem.up }

/-- `sfs_set_links`. -/
def sfsSetLinks (ino : ℕ) (n : ν) (s : State π ν κ) : State π ν κ :=
  { s with
    inodeList := n :: s.inodeList
    hashList := Function.update s.hashList (sinHashfn ino) (n :: s.hashList (sinHashfn ino)) }

/-- `sfs_remove_links`. -/
def sfsRemoveLinks (ino : ℕ) (n : ν) (s : State π ν κ) : State π ν κ :=
  { s with
    inodeList := s.inodeList.erase n
    hashList := Function.update s.hashList (sinHashfn ino) ((s.hashList (sinHashfn ino)).erase n) }

/-! ### Loading -/

/-- `sfs_load_inode`, until it has the lock. -/
def sfsLoadInode (p : π) (ino : ℕ) (s : State π ν κ) : State π ν κ :=
  (s.goto p (.loading ino)).lockSfsFs p

/-- `lookup_sfs_nolock`, the search. -/
def lookupSfsNolock (ino : ℕ) (s : State π ν κ) : Option ν :=
  (s.hashList (sinHashfn ino)).find? fun n => (s.inode n).any fun i => i.ino == ino

/-- `sfs_load_inode` from the lock to `sfs_rbuf`.  `ok` is the answer of `kmalloc`, `inuse` that of
`sfs_block_inuse`. -/
def sfsLoadInodeLocked (p : π) (ino : ℕ) (k : κ) (ok inuse : Bool) (s : State π ν κ) :
    Except Assertion (State π ν κ) :=
  match s.lookupSfsNolock ino with
  | some n =>
    match s.inode n with
    | none => .error .notAnInode
    | some i =>
      .ok (((s.setInode n (some (Inode.found i))).unlockSfsFs.store k (some n)).goto p .user)
  | none =>
    if ok then
      if inuse then .ok (s.goto p (.reading ino)) else .error .blockInuse
    else .ok (s.unlockSfsFs.goto p .user)

/-- `sfs_load_inode` after `sfs_rbuf`, which has returned `ret` and an inode with `nlinks` links.
`answer` is the answer of `kmalloc`. -/
def sfsLoadInodeRead (p : π) (ino : ℕ) (k : κ) (ret : ℤ) (nlinks : ℕ) (answer : Option ν)
    (s : State π ν κ) : Except Assertion (State π ν κ) :=
  if ret ≠ 0 then .ok (s.unlockSfsFs.goto p .user)
  else if h : 0 < nlinks then
    match answer with
    | none => .ok (s.unlockSfsFs.goto p .user)
    | some n =>
      -- `sfs_create_inode`
      let s := s.setInode n (some ⟨ino, 1, 1, false, nlinks, h⟩)
      .ok (((s.sfsSetLinks ino n).unlockSfsFs.store k (some n)).goto p .user)
  else .error .nlinks

/-! ### References -/

/-- `inode_ref_inc`; the new reference is kept in `k`. -/
def inodeRefInc (n : ν) (k : κ) (s : State π ν κ) : Except Assertion (State π ν κ) :=
  match s.inode n with
  | none => .error .notAnInode
  | some i => .ok ((s.setInode n (some { i with refCount := i.refCount + 1 })).store k (some n))

/-- A holder changes the file, as `sfs_io` does; its inode becomes dirty. -/
def modify (n : ν) (s : State π ν κ) : Except Assertion (State π ν κ) :=
  match s.inode n with
  | none => .error .notAnInode
  | some i => .ok (s.setInode n (some { i with dirty := true }))

/-- `sfs_reclaim`, until it has the lock. -/
def sfsReclaim (p : π) (n : ν) (s : State π ν κ) : State π ν κ :=
  (s.goto p (.reclaiming n)).lockSfsFs p

/-- `inode_ref_dec`; the reference in `k` is gone afterwards. -/
def inodeRefDec (p : π) (n : ν) (k : κ) (s : State π ν κ) : Except Assertion (State π ν κ) :=
  match s.inode n with
  | none => .error .notAnInode
  | some i =>
    if 0 < i.refCount then
      let s := (s.setInode n (some { i with refCount := i.refCount - 1 })).store k none
      .ok (if i.refCount - 1 = 0 then s.sfsReclaim p n else s)
    else .error .refCountPos

/-! ### Reclaiming -/

/-- The end of `sfs_reclaim`: `sfs_remove_links`, `unlock_sfs_fs` and `vop_kill`. -/
def sfsReclaimFree (p : π) (n : ν) (i : Inode) (s : State π ν κ) :
    Except Assertion (State π ν κ) :=
  let s := (s.sfsRemoveLinks i.ino n).unlockSfsFs
  if i.refCount = 0 then .ok ((s.setInode n none).goto p .user) else .error .refCountZero

/-- `sfs_reclaim` from the lock to `vop_fsync`. -/
def sfsReclaimLocked (p : π) (n : ν) (s : State π ν κ) : Except Assertion (State π ν κ) :=
  match s.inode n with
  | none => .error .notAnInode
  | some i =>
    if 0 < i.reclaimCount then
      let i := { i with reclaimCount := i.reclaimCount - 1 }
      let s := s.setInode n (some i)
      if i.reclaimCount ≠ 0 ∨ i.refCount ≠ 0 then .ok (s.unlockSfsFs.goto p .user)
      else if i.dirty then .ok (s.goto p (.syncing n))
      else s.sfsReclaimFree p n i
    else .error .reclaimCountPos

/-- `sfs_reclaim` after `vop_fsync`, which has returned `ret`. -/
def sfsReclaimSynced (p : π) (n : ν) (ret : ℤ) (s : State π ν κ) :
    Except Assertion (State π ν κ) :=
  match s.inode n with
  | none => .error .notAnInode
  | some i =>
    if ret ≠ 0 then .ok (s.unlockSfsFs.goto p .user)
    else s.sfsReclaimFree p n { i with dirty := false }

/-- A process sleeps while it is in the queue of the lock. -/
def Awake (p : π) (s : State π ν κ) : Prop := p ∉ s.fsSem.waitQueue

/-- `p` has called `sfs_reclaim` for the inode at `n` and the call has not got to its decrement. -/
def Pending (p : π) (n : ν) (s : State π ν κ) : Prop := s.pc p = .reclaiming n

end State

/-- Process `p` runs until it may block. -/
inductive Step (p : π) (s : State π ν κ) : Except Assertion (State π ν κ) → Prop
  | load (ino : ℕ) (hpc : s.pc p = .user) : Step p s (.ok (s.sfsLoadInode p ino))
  | loadLocked (ino : ℕ) (k : κ) (ok inuse : Bool) (hpc : s.pc p = .loading ino)
      (hawake : s.Awake p) (hk : s.held k = none) :
      Step p s (s.sfsLoadInodeLocked p ino k ok inuse)
  | loadRead (ino : ℕ) (k : κ) (ret : ℤ) (nlinks : ℕ) (answer : Option ν)
      (hpc : s.pc p = .reading ino) (hk : s.held k = none)
      (hanswer : ∀ n, answer = some n → s.inode n = none) :
      Step p s (s.sfsLoadInodeRead p ino k ret nlinks answer)
  | refInc (n : ν) (k k' : κ) (hpc : s.pc p = .user) (hk : s.held k = some n)
      (hk' : s.held k' = none) : Step p s (s.inodeRefInc n k')
  | modify (n : ν) (k : κ) (hpc : s.pc p = .user) (hk : s.held k = some n) :
      Step p s (s.modify n)
  | refDec (n : ν) (k : κ) (hpc : s.pc p = .user) (hk : s.held k = some n) :
      Step p s (s.inodeRefDec p n k)
  | reclaimLocked (n : ν) (hpc : s.pc p = .reclaiming n) (hawake : s.Awake p) :
      Step p s (s.sfsReclaimLocked p n)
  | reclaimSynced (n : ν) (ret : ℤ) (hpc : s.pc p = .syncing n) :
      Step p s (s.sfsReclaimSynced p n ret)

/-- Some process takes a step. -/
def Next (s s' : State π ν κ) : Prop := ∃ p, Step p s (.ok s')

end Ucore.Cache
