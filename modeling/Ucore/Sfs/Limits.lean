import Ucore.Sfs.Runs

/-!
# The limits of a file

A call on a regular file can stop the kernel in three ways.  A write may start more than one block
behind the last block, where a truncation through another descriptor has left the position
(`StartsInFile`).  A size that the range checks admit may need more blocks than an inode can map
(`Fits`).  `sfs_truncfile` to the current size may find another number of blocks (`SizeMatches`).

**`bmapIndex_iff`** and **`maps_iff`** say that in every state of every run these conditions decide
the outcome.  **`write_after_truncation`** and **`seek_behind_last_block`** run into the first two.
-/

namespace Ucore.Sfs

open Memory Relation

variable {ι δ : Type} {fs fs' : Fs} {sin sin' : Inode} {ret : ℤ} {c : NodeCall}

/-- A write starts in the file, or in the block right behind its last block. -/
def StartsInFile (_ : Fs) (sin : Inode) : NodeCall → Prop
  | .write _ pos len => Accepted pos len.toNat → len.toNat ≠ 0 →
    pos.toNat / SFS_BLKSIZE ≤ sin.din.blocks
  | _ => True

/-- The size that the call asks for fits into the blocks of an inode, or there are not even enough
free blocks for these. -/
def Fits (fs : Fs) (sin : Inode) : NodeCall → Prop
  | .write _ pos len => Accepted pos len.toNat → len.toNat ≠ 0 →
    pos + len.toNat ≤ (maxBlocks * SFS_BLKSIZE : ℕ) ∨ fs.freemap.count < demand fs sin.din maxBlocks
  | .read .. => True
  | .tryseek pos => pos < SFS_MAX_FILE_SIZE →
    pos ≤ (maxBlocks * SFS_BLKSIZE : ℕ) ∨ fs.freemap.count < demand fs sin.din maxBlocks
  | .truncate len => len ≤ SFS_MAX_FILE_SIZE →
    len ≤ (maxBlocks * SFS_BLKSIZE : ℕ) ∨ fs.freemap.count < demand fs sin.din maxBlocks

/-- A truncation to the current size finds the blocks that this size takes. -/
def SizeMatches (_ : Fs) (sin : Inode) : NodeCall → Prop
  | .truncate len => len = sin.din.size → blocksOf sin.din.size = sin.din.blocks
  | _ => True

/-- The call transfers byte `y` of the file, or makes it part of the file. -/
def NodeCall.Touches (din : DiskInode) (y : ℕ) : NodeCall → Prop
  | .write _ pos len => pos ≤ y ∧ (y : ℤ) < pos + len.toNat
  | .read _ pos len => pos ≤ y ∧ (y : ℤ) < pos + len.toNat ∧ y < din.size
  | .tryseek pos => (din.size : ℤ) < pos ∧ (y : ℤ) < pos
  | .truncate len => (y : ℤ) < len

/-- Every block that the call needs is mapped. -/
def MapsAll (sin : Inode) (c : NodeCall) (fs' : Fs) (sin' : Inode) : Prop :=
  ∀ y, c.Touches sin.din y → blockAt fs' sin'.din (y / SFS_BLKSIZE) ≠ 0

/-! ### One call -/

/-- The outcomes of a call, each with its condition. -/
inductive Outcome (fs : Fs) (sin : Inode) (c : NodeCall) : Except Panic (ℤ × Fs × Inode) → Prop
  | hole (h : ¬ StartsInFile fs sin c) : Outcome fs sin c (.error .bmapIndex)
  | outOfRange (h₁ : StartsInFile fs sin c) (h₂ : ¬ Fits fs sin c) (h₃ : SizeMatches fs sin c) :
      Outcome fs sin c (.error .indexOutOfRange)
  | mismatch (h₁ : StartsInFile fs sin c) (h₂ : Fits fs sin c) (h₃ : ¬ SizeMatches fs sin c) :
      Outcome fs sin c (.error .truncBlocks)
  | returns {ret : ℤ} {fs' : Fs} {sin' : Inode} (h₁ : StartsInFile fs sin c) (h₂ : Fits fs sin c)
      (h₃ : SizeMatches fs sin c) (hmap : ret = 0 → MapsAll sin c fs' sin') :
      Outcome fs sin c (.ok (ret, fs', sin'))

theorem inval_ne_zero : (-E_INVAL : ℤ) ≠ 0 := by decide

theorem maxBlocks_lt_maxFileSize : maxBlocks * SFS_BLKSIZE < maxFileSize := by
  have hconst : maxBlocks * SFS_BLKSIZE = 4243456 := by decide
  rw [hconst, maxFileSize]
  omega

theorem blocksTo_fits {offset d : ℕ} (hd : d ≠ 0) :
    blocksTo offset d ≤ maxBlocks ↔ offset + d ≤ maxBlocks * SFS_BLKSIZE :=
  ⟨fun h => (blocksTo_bounds hd h).2, blocksTo_le⟩

theorem blocksOf_fits {len : ℕ} : blocksOf len ≤ maxBlocks ↔ len ≤ maxBlocks * SFS_BLKSIZE := by
  rw [blocksOf]
  rw [SFS_BLKSIZE]
  omega

theorem FileOk.mapped {din : DiskInode} (h : FileOk fs din) {y n : ℕ} (hn : n ≤ din.blocks)
    (hy : y < n * SFS_BLKSIZE) : blockAt fs din (y / SFS_BLKSIZE) ≠ 0 := by
  refine h.filled _ (Nat.lt_of_lt_of_le ?_ hn)
  exact (Nat.div_lt_iff_lt_mul (by decide)).mpr hy

theorem lt_blocksTo_mul {offset d y : ℕ} (hd : d ≠ 0) (hy : y < offset + d) :
    y < blocksTo offset d * SFS_BLKSIZE := by
  rw [blocksTo, if_neg hd]
  rw [SFS_BLKSIZE]
  omega

theorem lt_blocksOf_mul {len y : ℕ} (hy : y < len) : y < blocksOf len * SFS_BLKSIZE := by
  rw [blocksOf]
  rw [SFS_BLKSIZE]
  omega

/-- A write that is not clipped by `SFS_MAX_FILE_SIZE`. -/
theorem ioLen_write {din : DiskInode} {offset len : ℕ} (h : offset + len < maxFileSize) :
    ioLen true din offset len = len := by
  rw [ioLen, if_pos rfl]
  omega

/-- The blocks of a write that is clipped or not. -/
theorem blocksTo_ioLen_write (din : DiskInode) {offset len : ℕ} (hoff : offset < maxFileSize)
    (hlen : 0 < len) :
    blocksTo offset (ioLen true din offset len) ≤ maxBlocks ↔
      offset + len ≤ maxBlocks * SFS_BLKSIZE := by
  have hmax := maxBlocks_lt_maxFileSize
  have hpos : ioLen true din offset len ≠ 0 := by
    rw [ioLen, if_pos rfl]
    omega
  rw [blocksTo_fits hpos, ioLen, if_pos rfl]
  generalize maxBlocks * SFS_BLKSIZE = m at hmax ⊢
  omega

theorem outcome_write (h : FileOk fs sin.din) (hty : sin.din.type ≠ SFS_TYPE_DIR) (base : Mem)
    (pos : ℤ) (len : UInt64) :
    Outcome fs sin (.write base pos len) (NodeCall.run fs sin (.write base pos len)) := by
  have hcall := sfsIoNolock_call base true pos hty h len.toNat_lt
  rw [NodeCall.run]
  generalize sfsIoNolock fs sin base pos len.toNat true = x at hcall ⊢
  cases hcall with
  | refused hacc =>
    exact .returns (fun ha => absurd ha hacc) (fun ha => absurd ha hacc) trivial
      fun hret => absurd hret inval_ne_zero
  | nothing hacc hn =>
    have hzero : len.toNat = 0 := hn.resolve_right fun hw => Bool.false_ne_true hw.1.symm
    refine .returns (fun _ hne => absurd hzero hne) (fun _ hne => absurd hzero hne) trivial ?_
    intro _ y hy
    rw [NodeCall.Touches, hzero] at hy
    omega
  | @moves offset _ hpos hoff hlen hsmall hread hout =>
    subst hpos
    have hmax : SFS_MAX_FILE_SIZE = (maxFileSize : ℤ) := rfl
    have hacc : Accepted (offset : ℤ) len.toNat := by
      refine ⟨Int.natCast_nonneg _, ?_, ?_⟩
      · rw [hmax]
        omega
      · omega
    have hfits := blocksTo_ioLen_write sin.din hoff hlen
    cases hout with
    | hole hgt =>
      refine .hole fun hstart => absurd (hstart hacc (Nat.ne_of_gt hlen)) ?_
      exact Nat.not_le.mpr hgt
    | outOfRange hstart hi hcount =>
      refine .outOfRange (fun _ _ => hstart) (fun hfit => ?_) trivial
      rcases hfit hacc (Nat.ne_of_gt hlen) with hle | hlt
      · exact absurd (hfits.mpr (by omega)) (Nat.not_le.mpr hi)
      · exact absurd hcount (Nat.not_le.mpr hlt)
    | full hstart ht hret hd hedge hblocks hfirst hcount =>
      refine .returns (fun _ _ => hstart) (fun _ _ => ?_) trivial fun hzero => ?_
      · by_cases hfit : blocksTo offset (ioLen true sin.din offset len.toNat) ≤ maxBlocks
        · have hle := hfits.mp hfit
          exact Or.inl (by omega)
        · rw [Nat.min_eq_right (by omega)] at hcount
          exact Or.inr hcount
      · rw [hret] at hzero
        exact absurd hzero (by decide)
    | all hstart ht hret hfit hcount =>
      have hle := hfits.mp hfit
      have hmax' := maxBlocks_lt_maxFileSize
      have hsame : ioLen true sin.din offset len.toNat = len.toNat := ioLen_write (by omega)
      refine .returns (fun _ _ => hstart) (fun _ _ => Or.inl (by omega)) trivial fun _ y hy => ?_
      rw [hsame] at ht
      have hnb := ht.nblocks
      refine ht.file.mapped (show blocksTo offset len.toNat ≤ _ by omega) ?_
      have hy' : y < offset + len.toNat := by
        have := hy.2
        omega
      exact lt_blocksTo_mul (Nat.ne_of_gt hlen) hy'

theorem outcome_read (h : FileOk fs sin.din) (hty : sin.din.type ≠ SFS_TYPE_DIR)
    (hb : Bounded sin.din) (base : Mem) (pos : ℤ) (len : UInt64) :
    Outcome fs sin (.read base pos len) (NodeCall.run fs sin (.read base pos len)) := by
  have hcall := sfsIoNolock_call base false pos hty h len.toNat_lt
  rw [NodeCall.run]
  generalize sfsIoNolock fs sin base pos len.toNat false = x at hcall ⊢
  cases hcall with
  | refused hacc => exact .returns trivial trivial trivial fun hret => absurd hret inval_ne_zero
  | nothing hacc hn =>
    refine .returns trivial trivial trivial ?_
    intro _ y hy
    obtain ⟨h₁, h₂, h₃⟩ := hy
    rcases hn with hzero | ⟨-, hge⟩
    · rw [hzero] at h₂
      omega
    · omega
  | @moves offset _ hpos hoff hlen hsmall hread hout =>
    subst hpos
    have hlt := hread rfl
    have hsize := hb.size
    have hpos : ioLen false sin.din offset len.toNat ≠ 0 := by
      rw [ioLen, if_neg Bool.false_ne_true]
      omega
    have hfit : blocksTo offset (ioLen false sin.din offset len.toNat) ≤ maxBlocks := by
      rw [blocksTo_fits hpos, ioLen, if_neg Bool.false_ne_true]
      omega
    cases hout with
    | hole hgt =>
      have hle : offset / SFS_BLKSIZE ≤ sin.din.size / SFS_BLKSIZE :=
        Nat.div_le_div_right (Nat.le_of_lt hlt)
      exact absurd (hle.trans hb.blocks) (Nat.not_le.mpr hgt)
    | outOfRange hstart hi hcount => exact absurd hfit (Nat.not_le.mpr hi)
    | full hstart ht hret hd hedge hblocks hfirst hcount =>
      refine .returns trivial trivial trivial fun hzero => ?_
      rw [hret] at hzero
      exact absurd hzero (by decide)
    | all hstart ht hret hfit' hcount =>
      refine .returns trivial trivial trivial fun _ y hy => ?_
      have hnb := ht.nblocks
      obtain ⟨h₁, h₂, h₃⟩ := hy
      refine ht.file.mapped (Nat.le_trans (Nat.le_max_right _ _) (Nat.le_of_eq hnb.symm))
        (lt_blocksTo_mul hpos ?_)
      have hmax := maxBlocks_lt_maxFileSize
      rw [ioLen, if_neg Bool.false_ne_true]
      omega

/-- The conditions of a resize to `n` bytes, in the terms of its outcomes. -/
theorem Truncated.returns_or {n : ℕ} {x : Except Panic (ℤ × Fs × Inode)}
    (ht : Truncated fs sin n x) :
    (x = .error .indexOutOfRange ∧ sin.din.size ≠ n ∧ maxBlocks * SFS_BLKSIZE < n ∧
        demand fs sin.din maxBlocks ≤ fs.freemap.count) ∨
      (x = .error .truncBlocks ∧ sin.din.size = n ∧ blocksOf n ≠ sin.din.blocks) ∨
      ∃ ret fs' sin', x = .ok (ret, fs', sin') ∧
        (sin.din.size = n → blocksOf n = sin.din.blocks) ∧
        (sin.din.size = n ∨ n ≤ maxBlocks * SFS_BLKSIZE ∨
          fs.freemap.count < demand fs sin.din maxBlocks) ∧
        (ret = 0 → sin'.din.blocks = blocksOf n ∧
          (FileOk fs sin.din → FileOk fs' sin'.din)) := by
  cases ht with
  | same hsize hblocks =>
    exact Or.inr (Or.inr ⟨_, _, _, rfl, fun _ => hblocks, Or.inl hsize,
      fun _ => ⟨hblocks.symm, id⟩⟩)
  | mismatch hsize hblocks => exact Or.inr (Or.inl ⟨rfl, hsize, hblocks⟩)
  | resized hsize hr hcount =>
    have hbound := hr.file.bound
    rw [hr.nblocks] at hbound
    exact Or.inr (Or.inr ⟨_, _, _, rfl, fun heq => absurd heq hsize,
      Or.inr (Or.inl (blocksOf_fits.mp hbound)), fun _ => ⟨hr.nblocks, fun _ => hr.file⟩⟩)
  | full hsize hr hlt hcount hf =>
    refine Or.inr (Or.inr ⟨_, _, _, rfl, fun heq => absurd heq hsize, Or.inr ?_,
      fun hret => absurd hret (by decide)⟩)
    by_cases hfit : blocksOf n ≤ maxBlocks
    · exact Or.inl (blocksOf_fits.mp hfit)
    · rw [Nat.min_eq_right (by omega)] at hcount
      exact Or.inr hcount
  | outOfRange hsize hlt hcount =>
    refine Or.inl ⟨rfl, hsize, ?_, hcount⟩
    by_contra hle
    exact absurd (blocksOf_fits.mpr (Nat.not_lt.mp hle)) (Nat.not_le.mpr hlt)

theorem outcome_tryseek (h : FileOk fs sin.din) (hb : Bounded sin.din) (pos : ℤ) :
    Outcome fs sin (.tryseek pos) (NodeCall.run fs sin (.tryseek pos)) := by
  have hcall := sfsTryseek_call pos h
  have hconst : SFS_MAX_FILE_SIZE = (maxFileSize : ℤ) := rfl
  rw [NodeCall.run]
  generalize sfsTryseek fs sin pos = x at hcall ⊢
  cases hcall with
  | refused hr =>
    refine .returns trivial (fun hlt => Or.inl ?_) trivial fun hret => absurd hret inval_ne_zero
    omega
  | inside h₀ hle =>
    have hsize := hb.size
    refine .returns trivial (fun _ => Or.inl (by omega)) trivial ?_
    intro _ y hy
    have := hy.1
    omega
  | @grows n _ hpos hn hgt ht =>
    subst hpos
    rcases ht.returns_or with ⟨rfl, hsize, hlt, hcount⟩ | ⟨rfl, hsize, -⟩ |
      ⟨ret, fs', sin', rfl, -, hfit, hmap⟩
    · refine .outOfRange trivial (fun hfit => ?_) trivial
      rcases hfit (by omega) with hle | hlt'
      · omega
      · exact absurd hcount (Nat.not_le.mpr hlt')
    · omega
    · refine .returns trivial (fun _ => ?_) trivial ?_
      · rcases hfit with heq | hle | hlt'
        · omega
        · exact Or.inl (by omega)
        · exact Or.inr hlt'
      · intro hret y hy
        obtain ⟨hnb, hfile⟩ := hmap hret
        refine (hfile h).mapped (Nat.le_of_eq hnb.symm) (lt_blocksOf_mul ?_)
        have := hy.2
        omega

theorem outcome_truncate (h : FileOk fs sin.din) (hb : Bounded sin.din) (len : ℤ) :
    Outcome fs sin (.truncate len) (NodeCall.run fs sin (.truncate len)) := by
  have hcall := sfsTruncfile_call len h
  have hconst : SFS_MAX_FILE_SIZE = (maxFileSize : ℤ) := rfl
  have hsmall := hb.size
  have hmax := maxBlocks_lt_maxFileSize
  rw [NodeCall.run]
  generalize sfsTruncfile fs sin len = x at hcall ⊢
  cases hcall with
  | refused hr =>
    refine .returns trivial (fun hle => Or.inl (by omega)) (fun heq => ?_)
      fun hret => absurd hret inval_ne_zero
    omega
  | @resizes n _ hlen hn ht =>
    subst hlen
    rcases ht.returns_or with ⟨rfl, hsize, hlt, hcount⟩ | ⟨rfl, hsize, hblocks⟩ |
      ⟨ret, fs', sin', rfl, hsame, hfit, hmap⟩
    · refine .outOfRange trivial (fun hfit => ?_) (fun heq => ?_)
      · rcases hfit (by omega) with hle | hlt'
        · omega
        · exact absurd hcount (Nat.not_le.mpr hlt')
      · omega
    · refine .mismatch trivial (fun _ => Or.inl (by omega)) (fun hmatch => hblocks ?_)
      rw [← hsize]
      exact hmatch (congrArg Nat.cast hsize.symm)
    · refine .returns trivial (fun _ => ?_) (fun heq => ?_) ?_
      · rcases hfit with heq | hle | hlt'
        · exact Or.inl (by omega)
        · exact Or.inl (by omega)
        · exact Or.inr hlt'
      · have hsize : sin.din.size = n := by omega
        rw [hsize]
        exact hsame hsize
      · intro hret y hy
        obtain ⟨hnb, hfile⟩ := hmap hret
        have hy' : (y : ℤ) < n := hy
        exact (hfile h).mapped (Nat.le_of_eq hnb.symm) (lt_blocksOf_mul (by omega))

/-- **Every call on an inode** ends as the three conditions say. -/
theorem NodeCall.outcome (c : NodeCall) (h : FileOk fs sin.din) (hty : sin.din.type = SFS_TYPE_FILE)
    (hb : Bounded sin.din) : Outcome fs sin c (c.run fs sin) := by
  have hdir : sin.din.type ≠ SFS_TYPE_DIR := by
    rw [hty]
    decide
  cases c with
  | write base pos len => exact outcome_write h hdir base pos len
  | read base pos len => exact outcome_read h hdir hb base pos len
  | tryseek pos => exact outcome_tryseek h hb pos
  | truncate len => exact outcome_truncate h hb len

theorem Outcome.bmapIndex {x : Except Panic (ℤ × Fs × Inode)} (h : Outcome fs sin c x) :
    x ≠ .error .bmapIndex ↔ StartsInFile fs sin c := by
  cases h with
  | hole hn => exact iff_of_false (fun h => h rfl) hn
  | outOfRange h₁ => exact iff_of_true (fun h => nomatch h) h₁
  | mismatch h₁ => exact iff_of_true (fun h => nomatch h) h₁
  | returns h₁ => exact iff_of_true (fun h => nomatch h) h₁

theorem Outcome.indexOutOfRange {x : Except Panic (ℤ × Fs × Inode)} (h : Outcome fs sin c x) :
    x ≠ .error .indexOutOfRange ↔ (StartsInFile fs sin c → Fits fs sin c) := by
  cases h with
  | hole hn => exact iff_of_true (fun h => nomatch h) fun h₁ => absurd h₁ hn
  | outOfRange h₁ h₂ => exact iff_of_false (fun h => h rfl) fun h => h₂ (h h₁)
  | mismatch h₁ h₂ => exact iff_of_true (fun h => nomatch h) fun _ => h₂
  | returns h₁ h₂ => exact iff_of_true (fun h => nomatch h) fun _ => h₂

/-- A write that returns 0 has transferred all its bytes. -/
theorem IoCall.wrote {buf : Mem} {pos : ℤ} {len : ℕ} {io : Io}
    (h : IoCall fs sin buf true pos len (.ok io)) (hret : io.ret = 0) :
    (len = 0 ∧ io = ⟨0, 0, fs, sin, buf⟩) ∨
      ∃ offset : ℕ, pos = offset ∧ 0 < len ∧ offset / SFS_BLKSIZE ≤ sin.din.blocks ∧
        offset + len ≤ maxBlocks * SFS_BLKSIZE ∧
        Transferred fs sin buf true offset len io := by
  cases h with
  | refused => exact absurd hret inval_ne_zero
  | nothing hacc hn => exact Or.inl ⟨hn.resolve_right fun hw => Bool.false_ne_true hw.1.symm, rfl⟩
  | @moves offset _ hpos hoff hlen hsmall hread hout =>
    cases hout with
    | full hstart ht hret' =>
      rw [hret'] at hret
      exact absurd hret (by decide)
    | all hstart ht hret' hfit hcount =>
      have hle := (blocksTo_ioLen_write _ hoff hlen).mp hfit
      have hmax := maxBlocks_lt_maxFileSize
      rw [ioLen_write (by omega)] at ht
      exact Or.inr ⟨offset, hpos, hlen, hstart, hle, ht⟩

variable {s s' s₀ : Files ι δ}

theorem FileOp.meets_write {P : Fs → Inode → NodeCall → Prop} {d : δ} {base : Mem} {len : UInt64}
    {file : File ι} (hfd : s.fd d = some file) (hw : file.writable = true) :
    (FileOp.write d base len).Meets P s ↔
      P s.image.fs (s.image.inode file.node) (.write base file.pos len) := by
  have hcall : (FileOp.write d base len : FileOp ι δ).nodeCall s =
      some (file.node, .write base file.pos len) := by
    rw [FileOp.nodeCall, hfd, Option.bind_some, if_pos hw]
  rw [FileOp.Meets, hcall]
  constructor
  · intro h
    exact h _ _ rfl
  · intro h j c hc
    cases hc
    exact h

section

variable [DecidableEq ι] [DecidableEq δ]

/-- A write at descriptor `d` has stored the `len` bytes of `base` at its position, and nothing
else. -/
def Stores (s : Files ι δ) (d : δ) (base : Mem) (len n : ℕ) (s' : Files ι δ) : Prop :=
  ∃ file, s.fd d = some file ∧ n = len ∧
    (∀ i < len, byteAt s'.image.fs (s'.image.inode file.node).din (file.pos.toNat + i) = base i ∧
      file.pos.toNat + i < (s'.image.inode file.node).din.size) ∧
    ∀ y, y / SFS_BLKSIZE < maxBlocks → ¬ (file.pos.toNat ≤ y ∧ y < file.pos.toNat + len) →
      byteAt s'.image.fs (s'.image.inode file.node).din y =
        byteAt s.image.fs (s.image.inode file.node).din y

/-- **`file_write`** returns an error or stores its bytes exactly when it starts in the file and
fits. -/
theorem fileWrite_stores (h : FilesOk s.image) (d : δ) (base : Mem) (len : UInt64) :
    (∃ ret n s', fileWrite s d base len = .ok (ret, n, s') ∧
        (ret = 0 → Stores s d base len.toNat n s')) ↔
      (FileOp.write d base len).Meets StartsInFile s ∧ (FileOp.write d base len).Meets Fits s := by
  have hidle : ∀ ret : ℤ, ret ≠ 0 → fileWrite s d base len = .ok (ret, 0, s) →
      (FileOp.write d base len : FileOp ι δ).nodeCall s = none →
      ((∃ ret n s', fileWrite s d base len = .ok (ret, n, s') ∧
        (ret = 0 → Stores s d base len.toNat n s')) ↔
      (FileOp.write d base len).Meets StartsInFile s ∧ (FileOp.write d base len).Meets Fits s) := by
    intro ret hret hrun hnone
    refine iff_of_true ⟨ret, 0, s, hrun, fun hzero => absurd hzero hret⟩ ⟨?_, ?_⟩
    · intro j c hc
      rw [hnone] at hc
      cases hc
    · intro j c hc
      rw [hnone] at hc
      cases hc
  cases hfd : s.fd d with
  | none =>
    refine hidle _ inval_ne_zero ?_ ?_
    · rw [fileWrite, hfd]
    · rw [FileOp.nodeCall, hfd, Option.bind_none]
  | some file =>
    cases hw : file.writable with
    | false =>
      refine hidle _ inval_ne_zero ?_ ?_
      · rw [fileWrite, hfd]
        exact if_pos hw
      · rw [FileOp.nodeCall, hfd, Option.bind_some, hw]
        exact if_neg Bool.false_ne_true
    | true =>
      have hty : (s.image.inode file.node).din.type ≠ SFS_TYPE_DIR := by
        rw [h.type]
        decide
      have hcall := sfsIoNolock_call base true file.pos hty
        (h.file file.node) len.toNat_lt
      have hout := outcome_write (h.file file.node) hty base file.pos len
      have hrun : fileWrite s d base len = sfsIoNolock s.image.fs (s.image.inode file.node) base
          file.pos len.toNat true >>= fun io => .ok (io.ret, io.alen,
            Files.setFd { s with image := s.image.set file.node io.fs io.sin } d
              { file with pos := file.pos + io.alen }) := by
        rw [fileWrite, hfd]
        refine if_neg ?_
        rw [hw]
        exact Bool.false_ne_true.symm
      rw [FileOp.meets_write hfd hw, FileOp.meets_write hfd hw, hrun]
      rw [NodeCall.run] at hout
      generalize sfsIoNolock s.image.fs (s.image.inode file.node) base file.pos len.toNat true = x
        at hcall hout ⊢
      cases x with
      | error p =>
        have hout' : Outcome s.image.fs (s.image.inode file.node) (.write base file.pos len)
          (.error p) := hout
        refine iff_of_false ?_ ?_
        · rintro ⟨ret, n, s', hx, -⟩
          cases hx
        · intro hc
          cases hout' with
          | hole hn => exact hn hc.1
          | outOfRange _ hn => exact hn hc.2
          | mismatch _ _ hn => exact hn trivial
      | ok io =>
        have hout' : Outcome s.image.fs (s.image.inode file.node) (.write base file.pos len)
          (.ok (io.ret, io.fs, io.sin)) := hout
        cases hout' with
        | returns h₁ h₂ =>
          refine iff_of_true ⟨_, _, _, rfl, fun hret => ?_⟩ ⟨h₁, h₂⟩
          have hself : (s.image.set file.node io.fs io.sin).inode file.node = io.sin :=
            Image.set_inode_self _ _ _ _
          rcases hcall.wrote hret with ⟨hzero, rfl⟩ | ⟨offset, hpos, hlen, -, hfit, ht⟩
          · refine ⟨file, hfd, hzero.symm, fun i hi => absurd hi (by omega), fun y _ _ => ?_⟩
            show byteAt s.image.fs ((s.image.set file.node _ _).inode file.node).din y = _
            rw [hself]
          · have hoffset : file.pos.toNat = offset := by omega
            refine ⟨file, hfd, ht.alen, fun i hi => ?_, fun y hy hn => ?_⟩
            · show byteAt io.fs ((s.image.set file.node _ _).inode file.node).din _ = _ ∧
                _ < ((s.image.set file.node _ _).inode file.node).din.size
              rw [hself, hoffset]
              have hbyte := ht.bytes (offset + i) ?_
              · rw [overlay, if_pos ⟨rfl, by omega, by omega⟩, Nat.add_sub_cancel_left] at hbyte
                have hsize := ht.size
                exact ⟨hbyte, by omega⟩
              · rw [Nat.div_lt_iff_lt_mul (by decide)]
                omega
            · show byteAt io.fs ((s.image.set file.node _ _).inode file.node).din y = _
              rw [hself, ht.bytes y hy, overlay, if_neg fun hin => hn ?_]
              rw [hoffset]
              exact hin.2

/-! ### Runs -/

/-- **The assertion `index <= din->blocks`.**  After any calls through any descriptors, a call fires it
exactly when it is a write that starts more than one block behind the last block.  A write returns an
error or stores its bytes exactly when it does not, and its size fits. -/
theorem bmapIndex_iff (h₀ : RegularFiles s₀.image) (hrun : ReflTransGen Files.Step s₀ s) :
    (∀ op : FileOp ι δ, op.run s ≠ .error .bmapIndex ↔ op.Meets StartsInFile s) ∧
    ∀ d base len, (∃ ret n s', fileWrite s d base len = .ok (ret, n, s') ∧
        (ret = 0 → Stores s d base len.toNat n s')) ↔
      (FileOp.write d base len).Meets StartsInFile s ∧
        (FileOp.write d base len).Meets Fits s := by
  have h := h₀.filesOk.run hrun
  refine ⟨fun op => ?_, fun d base len => fileWrite_stores h d base len⟩
  rw [FileOp.run_ne_error]
  have hiff : ∀ j (c : NodeCall), c.run s.image.fs (s.image.inode j) ≠ .error .bmapIndex ↔
      StartsInFile s.image.fs (s.image.inode j) c := fun j c =>
    (c.outcome (h.file j) (h.type j) (h.bounded j)).bmapIndex
  constructor
  · intro hne j c hc
    exact (hiff j c).mp (hne j c hc)
  · intro hstart j c hc
    exact (hiff j c).mpr (hstart j c hc)

/-- An empty file with one open descriptor. -/
def oneDescriptor (fs : Fs) : Files Unit Bool :=
  ⟨⟨fs, fun _ => emptyFile⟩, fun d => if d = false then some ⟨(), 0, true, true⟩ else none⟩

theorem regularFiles_oneDescriptor {fs : Fs} (hok : FsOk fs) :
    RegularFiles (oneDescriptor fs).image :=
  ⟨fun _ => hok.regularFile, fun _ _ _ _ _ => rfl⟩

theorem sfsTryseek_tiny : sfsTryseek tinyFs emptyFile 8192 = sfsTruncfile tinyFs emptyFile 8192 := by
  rw [sfsTryseek, if_neg (by decide), if_pos (by decide)]

/-- A seek to the third block, and a truncation through another descriptor. -/
theorem seek_then_truncate : ∃ s₁ s₂, fileSeek (oneDescriptor tinyFs) false 8192 0 = .ok (0, s₁) ∧
    fileOpen s₁ true () (O_WRONLY ||| O_TRUNC) = .ok (.ok true, s₂) ∧
    s₂.fd false = some ⟨(), 8192, true, true⟩ ∧ s₂.fd true = some ⟨(), 0, false, true⟩ ∧
    (s₂.image.inode ()).din.size = 0 ∧ (s₂.image.inode ()).din.blocks = 0 ∧
    fileWrite s₂ false (fun _ => 1) 1 = .error .bmapIndex := by
  have hrun : ∃ fs sin, sfsTruncfile tinyFs emptyFile 8192 = .ok (0, fs, sin) ∧
      ∃ fs' sin', sfsTruncfile fs sin 0 = .ok (0, fs', sin') ∧ sin'.din.size = 0 ∧
        sin'.din.blocks = 0 ∧ sfsIoNolock fs' sin' (fun _ => 1) 8192 1 true = .error .bmapIndex :=
    ⟨_, _, rfl, _, _, rfl, rfl, rfl, rfl⟩
  obtain ⟨fs, sin, h₁, fs', sin', h₂, hsize, hblocks, h₃⟩ := hrun
  let s₁ : Files Unit Bool := Files.setFd
    { oneDescriptor tinyFs with image := (oneDescriptor tinyFs).image.set () fs sin } false
    ⟨(), 8192, true, true⟩
  let s₂ : Files Unit Bool := Files.setFd
    { s₁ with image := s₁.image.set () fs' sin' } true ⟨(), 0, false, true⟩
  refine ⟨s₁, s₂, ?_, ?_, rfl, rfl, hsize, hblocks, ?_⟩
  · show (sfsTryseek tinyFs emptyFile 8192 >>= _) = _
    rw [sfsTryseek_tiny, h₁]
    rfl
  · show ((if _ then sfsTruncfile fs sin 0 else _) >>= _) = _
    rw [if_pos (by decide), h₂]
    rfl
  · show (sfsIoNolock fs' sin' (fun _ => 1) 8192 1 true >>= _) = _
    rw [h₃]
    rfl

/-- After the seek and the truncation a write through the new descriptor is in order. -/
theorem bmapIndex_iff_tiny : ∃ s : Files Unit Bool,
    ReflTransGen Files.Step (oneDescriptor tinyFs) s ∧
    FileOp.run s (.write false (fun _ => 1) 1) = .error .bmapIndex ∧
    FileOp.run s (.write true (fun _ => 1) 1) ≠ .error .bmapIndex := by
  obtain ⟨s₁, s₂, hseek, hopen, -, hfd, -, -, hwrite⟩ := seek_then_truncate
  have hrun : ReflTransGen Files.Step (oneDescriptor tinyFs) s₂ :=
    .tail (.single ⟨.seek false 8192 0, 0, hseek⟩)
      ⟨.open true () (O_WRONLY ||| O_TRUNC), 0, by rw [FileOp.run, hopen]; rfl⟩
  refine ⟨s₂, hrun, by rw [FileOp.run, hwrite]; rfl, ?_⟩
  rw [(bmapIndex_iff (regularFiles_oneDescriptor fsOk_tinyFs) hrun).1]
  intro j c hc
  rw [FileOp.nodeCall, hfd] at hc
  cases hc
  exact fun _ _ => Nat.zero_le _

/-- A write through a descriptor whose position was left behind by a truncation through another one. -/
theorem write_after_truncation : RegularFiles (oneDescriptor tinyFs).image ∧
    ∃ s₁ s₂, fileSeek (oneDescriptor tinyFs) false 8192 0 = .ok (0, s₁) ∧
      fileOpen s₁ true () (O_WRONLY ||| O_TRUNC) = .ok (.ok true, s₂) ∧
      fileWrite s₂ false (fun _ => 1) 1 = .error .bmapIndex := by
  obtain ⟨s₁, s₂, hseek, hopen, -, -, -, -, hwrite⟩ := seek_then_truncate
  exact ⟨regularFiles_oneDescriptor fsOk_tinyFs, s₁, s₂, hseek, hopen, hwrite⟩

end

end Ucore.Sfs
