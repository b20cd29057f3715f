import Ucore.Sfs.Descriptors

/-!
# Runs of the calls on regular files

`FilesOk` holds in every state of a run from an image with well-formed regular files
(`FilesOk.run`), also where an allocation fails in the middle of a call: the blocks of every file are
mapped, in use and its own, and the size does not run ahead of the blocks.
-/

namespace Ucore.Sfs

open Memory Relation

variable {ι δ : Type} {fs fs' : Fs} {sin sin' : Inode} {ret : ℤ} {c : NodeCall} {j l : ι}

/-- The blocks reach up to the size, except perhaps for the last one. -/
structure Bounded (din : DiskInode) : Prop where
  blocks : din.size / SFS_BLKSIZE ≤ din.blocks
  size : din.size ≤ maxBlocks * SFS_BLKSIZE

/-- The files of an image share no block. -/
def Apart (s : Image ι) : Prop :=
  ∀ j l c, Owns s.fs (s.inode j).din c → Owns s.fs (s.inode l).din c → j = l

/-- Regular files in any state that a run may leave them in. -/
structure FilesOk (s : Image ι) : Prop where
  file : ∀ j, FileOk s.fs (s.inode j).din
  type : ∀ j, (s.inode j).din.type = SFS_TYPE_FILE
  bounded : ∀ j, Bounded (s.inode j).din
  apart : Apart s

/-- Well-formed regular files: each has as many blocks as its size takes. -/
structure RegularFiles (s : Image ι) : Prop where
  file : ∀ j, RegularFile s.fs (s.inode j).din
  apart : Apart s

theorem RegularFile.bounded {din : DiskInode} (h : RegularFile fs din) : Bounded din := by
  have hnb := h.nblocks
  have hbound := h.file.bound
  constructor
  · rw [hnb]
    rw [SFS_BLKSIZE] at *
    omega
  · rw [SFS_BLKSIZE] at *
    omega

theorem RegularFiles.filesOk {s : Image ι} (h : RegularFiles s) : FilesOk s :=
  ⟨fun j => (h.file j).file, fun j => (h.file j).type, fun j => (h.file j).bounded, h.apart⟩

/-! ### One call -/

/-- What a call that returns leaves in its inode. -/
structure Kept (fs : Fs) (sin : Inode) (fs' : Fs) (sin' : Inode) : Prop where
  priv : Private fs sin.din fs' sin'.din
  file : FileOk fs' sin'.din
  type : sin'.din.type = sin.din.type
  bounded : Bounded sin'.din

theorem Kept.refl (h : FileOk fs sin.din) (hb : Bounded sin.din) : Kept fs sin fs sin :=
  ⟨Private.refl h.ok h.map, h, rfl, hb⟩

theorem blocksTo_bounds {offset d n : ℕ} (hd : d ≠ 0) (h : blocksTo offset d ≤ n) :
    (offset + d) / SFS_BLKSIZE ≤ n ∧ offset + d ≤ n * SFS_BLKSIZE := by
  rw [blocksTo, if_neg hd] at h
  rw [SFS_BLKSIZE] at *
  omega

theorem Transferred.kept {buf : Mem} {write : Bool} {offset d : ℕ} {io : Io}
    (h : Transferred fs sin buf write offset d io) (hb : Bounded sin.din)
    (hzero : d = 0 → offset / SFS_BLKSIZE ≤ sin.din.blocks ∧ offset ≤ maxBlocks * SFS_BLKSIZE) :
    Kept fs sin io.fs io.sin := by
  have hnb := h.nblocks
  have hsize := h.size
  have hbound := h.file.bound
  have hend : (offset + d) / SFS_BLKSIZE ≤ io.sin.din.blocks ∧
      offset + d ≤ maxBlocks * SFS_BLKSIZE := by
    by_cases hd : d = 0
    · obtain ⟨h₁, h₂⟩ := hzero hd
      rw [hd, Nat.add_zero]
      exact ⟨h₁.trans (by omega), h₂⟩
    · obtain ⟨h₁, h₂⟩ := blocksTo_bounds hd (show blocksTo offset d ≤ io.sin.din.blocks by omega)
      exact ⟨h₁, h₂.trans (Nat.mul_le_mul_right _ hbound)⟩
  obtain ⟨hb₁, hb₂⟩ := hb
  refine ⟨h.priv, h.file, h.type, ?_, ?_⟩
  · rw [hsize]
    rcases Nat.le_total sin.din.size (offset + d) with hle | hle
    · rw [Nat.max_eq_right hle]
      exact hend.1
    · rw [Nat.max_eq_left hle]
      exact hb₁.trans (by omega)
  · rw [hsize]
    exact Nat.max_le.mpr ⟨hb₂, hend.2⟩

theorem IoCall.kept {buf : Mem} {write : Bool} {pos : ℤ} {len : ℕ} {io : Io}
    (hc : IoCall fs sin buf write pos len (.ok io)) (h : FileOk fs sin.din) (hb : Bounded sin.din) :
    Kept fs sin io.fs io.sin := by
  cases hc with
  | refused => exact Kept.refl h hb
  | nothing => exact Kept.refl h hb
  | moves hpos hoff hlen hsmall hread hout =>
    cases hout with
    | all hstart ht hret hfit hcount =>
      refine ht.kept hb ?_
      intro hzero
      rw [ioLen] at hzero
      cases write with
      | true =>
        rw [if_pos rfl] at hzero
        omega
      | false =>
        have := hread rfl
        rw [if_neg Bool.false_ne_true] at hzero
        omega
    | full hstart ht hret hd hedge hblocks hfirst hcount =>
      refine ht.kept hb ?_
      intro hzero
      -- the first block is missing, so it is a block that the inode could map
      obtain ⟨hlt, -, -⟩ := hfirst hzero
      refine ⟨hstart, ?_⟩
      rw [SFS_BLKSIZE] at *
      omega

theorem Truncated.kept {len : ℕ} (ht : Truncated fs sin len (.ok (ret, fs', sin')))
    (h : FileOk fs sin.din) (hb : Bounded sin.din) : Kept fs sin fs' sin' := by
  cases ht with
  | same => exact Kept.refl h hb
  | resized hsize hr hcount =>
    have hnb := hr.nblocks
    have hbound := hr.file.bound
    have hlen := hr.size
    refine ⟨hr.priv, hr.file, hr.type, ?_, ?_⟩
    · rw [hnb, hlen, blocksOf]
      rw [SFS_BLKSIZE]
      omega
    · rw [hnb, blocksOf] at hbound
      rw [SFS_BLKSIZE] at *
      omega
  | full hsize hr hlt hcount hf =>
    have hnb := hr.nblocks
    have hlen := hr.size
    obtain ⟨hb₁, hb₂⟩ := hb
    refine ⟨hr.priv, hr.fileOk, hr.type, ?_, ?_⟩
    · rw [hlen]
      omega
    · rw [hlen]
      exact hb₂

/-- **One call on one inode.** -/
theorem NodeCall.kept (h : FileOk fs sin.din) (hty : sin.din.type = SFS_TYPE_FILE)
    (hb : Bounded sin.din) (hrun : c.run fs sin = .ok (ret, fs', sin')) : Kept fs sin fs' sin' := by
  have hdir : sin.din.type ≠ SFS_TYPE_DIR := by
    rw [hty]
    decide
  have hio : ∀ (buf : Mem) (pos : ℤ) (len : UInt64) (write : Bool),
      (sfsIoNolock fs sin buf pos len.toNat write).map (fun io => (io.ret, io.fs, io.sin)) =
        .ok (ret, fs', sin') → Kept fs sin fs' sin' := by
    intro buf pos len write heq
    have hcall := sfsIoNolock_call buf write pos hdir h len.toNat_lt
    generalize sfsIoNolock fs sin buf pos len.toNat write = x at hcall heq
    cases x with
    | error p => nomatch heq
    | ok io =>
      cases heq
      exact hcall.kept h hb
  cases c with
  | write base pos len => exact hio _ _ _ _ hrun
  | read base pos len => exact hio _ _ _ _ hrun
  | tryseek pos =>
    have hcall := sfsTryseek_call pos h
    rw [show sfsTryseek fs sin pos = _ from hrun] at hcall
    cases hcall with
    | refused => exact Kept.refl h hb
    | inside => exact Kept.refl h hb
    | grows hpos hn hgt ht => exact ht.kept h hb
  | truncate len =>
    have hcall := sfsTruncfile_call len h
    rw [show sfsTruncfile fs sin len = _ from hrun] at hcall
    cases hcall with
    | refused => exact Kept.refl h hb
    | resizes hlen hn ht => exact ht.kept h hb

/-! ### Several files -/

theorem Apart.untouched {s : Image ι} (ha : Apart s) (hp : Private s.fs (s.inode j).din fs' sin'.din) (hl : l ≠ j)
    (h : FileOk s.fs (s.inode l).din) : Untouched s.fs fs' sin'.din (s.inode l).din := by
  refine hp.untouched h ?_
  intro b hb hb'
  exact hl (ha l j b hb hb')

section

variable [DecidableEq ι]

theorem Image.set_inode_self (s : Image ι) (j : ι) (fs : Fs) (sin : Inode) :
    (s.set j fs sin).inode j = sin := Function.update_self _ _ _

theorem Image.set_inode_of_ne (s : Image ι) (fs : Fs) (sin : Inode) (hl : l ≠ j) :
    (s.set j fs sin).inode l = s.inode l := Function.update_of_ne hl _ _

variable {s : Image ι}

theorem Apart.set (ha : Apart s) (hfile : ∀ j, FileOk s.fs (s.inode j).din)
    (hp : Private s.fs (s.inode j).din fs' sin'.din) : Apart (s.set j fs' sin') := by
  have hother : ∀ l, l ≠ j → Untouched s.fs fs' sin'.din (s.inode l).din := fun l hl =>
    ha.untouched hp hl (hfile l)
  intro k l b hk hl
  by_cases hkj : k = j
  · subst hkj
    by_contra hlk
    rw [s.set_inode_self] at hk
    rw [s.set_inode_of_ne _ _ (Ne.symm hlk)] at hl
    exact (hother l (Ne.symm hlk)).apart b hl hk
  · rw [s.set_inode_of_ne _ _ hkj] at hk
    by_cases hlj : l = j
    · subst hlj
      rw [s.set_inode_self] at hl
      exact absurd hl ((hother k hkj).apart b hk)
    · rw [s.set_inode_of_ne _ _ hlj] at hl
      exact ha k l b (((hother k hkj).owns b).mp hk) (((hother l hlj).owns b).mp hl)

theorem FilesOk.set (h : FilesOk s) (hk : Kept s.fs (s.inode j) fs' sin') :
    FilesOk (s.set j fs' sin') := by
  refine ⟨?_, ?_, ?_, h.apart.set h.file hk.priv⟩
  · intro l
    by_cases hl : l = j
    · rw [hl, s.set_inode_self]
      exact hk.file
    · rw [s.set_inode_of_ne _ _ hl]
      exact (h.apart.untouched hk.priv hl (h.file l)).file
  · intro l
    by_cases hl : l = j
    · rw [hl, s.set_inode_self]
      exact hk.type.trans (h.type j)
    · rw [s.set_inode_of_ne _ _ hl]
      exact h.type l
  · intro l
    by_cases hl : l = j
    · rw [hl, s.set_inode_self]
      exact hk.bounded
    · rw [s.set_inode_of_ne _ _ hl]
      exact h.bounded l

end

/-! ### Runs -/

variable [DecidableEq ι] [DecidableEq δ] {s s' s₀ : Files ι δ} {op : FileOp ι δ}

/-- A call that returns. -/
def Files.Step (s s' : Files ι δ) : Prop := ∃ op ret, FileOp.run s op = .ok (ret, s')

/-- The inode operation of a call, if it makes one, meets a condition. -/
def FileOp.Meets (P : Fs → Inode → NodeCall → Prop) (s : Files ι δ) (op : FileOp ι δ) : Prop :=
  ∀ j c, op.nodeCall s = some (j, c) → P s.image.fs (s.image.inode j) c

/-- A call stops where its inode operation does. -/
theorem FileOp.run_ne_error (s : Files ι δ) (op : FileOp ι δ) (p : Panic) :
    op.run s ≠ .error p ↔ op.Meets (fun fs sin c => c.run fs sin ≠ .error p) s := by
  have heff := op.effect s
  rw [FileOp.Meets]
  generalize op.nodeCall s = n at heff ⊢
  generalize op.run s = x at heff ⊢
  cases heff with
  | idle h =>
    constructor
    · intro _ j c hc
      nomatch hc
    · intro _ he
      nomatch he
  | stops h =>
    constructor
    · intro hne j c hc
      cases hc
      rw [h]
      intro he
      exact hne (congrArg Except.error (Except.error.inj he))
    · intro hall he
      refine hall _ _ rfl ?_
      rw [h]
      exact congrArg Except.error (Except.error.inj he)
  | returns h himage =>
    constructor
    · intro _ j c hc
      cases hc
      rw [h]
      intro he
      nomatch he
    · intro _ he
      nomatch he

theorem FilesOk.step (h : FilesOk s.image) (hrun : op.run s = .ok (ret, s')) : FilesOk s'.image := by
  have heff := op.effect s
  rw [hrun] at heff
  generalize op.nodeCall s = n at heff
  cases heff with
  | idle himage =>
    rw [himage]
    exact h
  | returns hcall himage =>
    rw [himage]
    exact h.set (NodeCall.kept (h.file _) (h.type _) (h.bounded _) hcall)

/-- **In every state of a run** the files are in order, though the size and the number of blocks of a
file may disagree. -/
theorem FilesOk.run (h : FilesOk s₀.image) (hrun : ReflTransGen Files.Step s₀ s) :
    FilesOk s.image := by
  refine Transition.invariant (P := fun s : Files ι δ => FilesOk s.image) ?_ hrun h
  intro a b ha hab
  obtain ⟨op, ret, hop⟩ := hab
  exact ha.step hop

end Ucore.Sfs
