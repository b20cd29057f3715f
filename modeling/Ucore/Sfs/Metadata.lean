import Ucore.Lib.Fallible
import Ucore.Sfs.Limits

/-!
# The size and the number of blocks

`din->blocks` is advanced block by block, `din->size` at the end of a call.  When the device is full
they can come apart in two places.  `sfs_truncfile` keeps the blocks that it found before it ran out of
free ones, and a write that does not even find its first block still moves the size to its start.

**`metadata_holds`**: in a run without these (`Steady`), the number of blocks is that of the size in
every state, the assertions of `sfs_truncfile` do not fire, and a seek or an open that returns an error
leaves all inodes as they were.  **`growth_is_not_atomic`** runs into the assertion.
-/

namespace Ucore.Sfs

open Memory Relation

variable {ι δ : Type} {fs fs' : Fs} {sin sin' : Inode} {ret : ℤ} {c : NodeCall} {n : ℕ}

/-- A growth to `n` bytes finds all free blocks that it needs, or not even the first one. -/
def GrowsWhole (fs : Fs) (din : DiskInode) (n : ℕ) : Prop :=
  demand fs din (min (blocksOf n) maxBlocks) ≤ fs.freemap.count ∨ NoBlock fs din

/-- The call does not run out of free blocks where this leaves the size and the number of blocks
apart. -/
def Steady (fs : Fs) (sin : Inode) : NodeCall → Prop
  | .write _ pos len => Accepted pos len.toNat → len.toNat ≠ 0 → NoBlock fs sin.din →
    sin.din.size < pos → pos.toNat / SFS_BLKSIZE = sin.din.blocks → SFS_BLKSIZE ∣ pos.toNat
  | .read .. => True
  | .tryseek pos => sin.din.size < pos → pos < SFS_MAX_FILE_SIZE → GrowsWhole fs sin.din pos.toNat
  | .truncate len => 0 ≤ len → len ≤ SFS_MAX_FILE_SIZE → GrowsWhole fs sin.din len.toNat

/-! ### Growth without a free block -/

theorem sfsBmapLoad_noBlock (h : FileOk fs sin.din) (hno : NoBlock fs sin.din) :
    ∃ fs', sfsBmapLoad fs sin sin.din.blocks = .ok (.error (-E_NO_MEM), fs', sin) := by
  obtain ⟨hlt, h0, hcount⟩ := hno
  rcases sfsBmapLoad_spec h.ok h.map hlt (Nat.le_refl _) (h.filled _) with
    ⟨fs', heq, -⟩ | ⟨b, fs', sin', -, hl, -⟩
  · exact ⟨fs', heq⟩
  · have hl := hl.count
    rw [if_pos h0] at hl
    omega

/-- **A growth that does not find its first block** leaves the inode alone. -/
theorem sfsTruncfile_noBlock (h : FileOk fs sin.din) (hno : NoBlock fs sin.din)
    (hn : n ≤ maxFileSize) (hsize : sin.din.size ≠ n) (hlt : sin.din.blocks < blocksOf n) :
    ∃ fs', sfsTruncfile fs sin n = .ok (-E_NO_MEM, fs', sin) := by
  have hmax : SFS_MAX_FILE_SIZE = (maxFileSize : ℤ) := rfl
  have hrange : ¬ ((n : ℤ) < 0 ∨ (n : ℤ) > maxFileSize) := by omega
  have hcast : ¬ (sin.din.size : ℤ) = (n : ℤ) := by omega
  obtain ⟨fs', hload⟩ := sfsBmapLoad_noBlock h hno
  obtain ⟨k, hk⟩ := Nat.exists_eq_add_of_lt hlt
  have hsub : blocksOf n - sin.din.blocks = k + 1 := by omega
  refine ⟨fs', ?_⟩
  rw [sfsTruncfile, hmax, if_neg hrange, Int.toNat_natCast]
  show (if (sin.din.size : ℤ) = n then _ else
    (if sin.din.blocks < blocksOf n then
      growLoop (blocksOf n - sin.din.blocks) sin.din.blocks fs sin else _) >>= _) = _
  rw [if_neg hcast, if_pos hlt, hsub, growLoop, hload, ok_bind, ok_bind]
  show (if (-E_NO_MEM : ℤ) ≠ 0 then _ else _) = _
  rw [if_pos (by decide)]

/-! ### One call -/

/-- What a steady call leaves in its inode. -/
structure KeepsMetadata (fs' : Fs) (sin sin' : Inode) (c : NodeCall) (ret : ℤ) : Prop where
  regular : RegularFile fs' sin'.din
  atomic : ret ≠ 0 → (∀ base pos len, c ≠ .write base pos len) → sin' = sin

/-- A growth, or a truncation. -/
theorem Truncated.metadata (h : RegularFile fs sin.din) (hn : n ≤ maxFileSize)
    (hrun : sfsTruncfile fs sin n = .ok (ret, fs', sin')) (hs : GrowsWhole fs sin.din n) :
    RegularFile fs' sin'.din ∧ (ret ≠ 0 → sin' = sin) := by
  have ht := sfsTruncfile_spec h.file hn
  have hkept := fun ht : Truncated fs sin n (.ok (ret, fs', sin')) => ht.kept h.file h.bounded
  rw [hrun] at ht
  have hk := hkept ht
  cases ht with
  | same => exact ⟨h, fun hret => absurd rfl hret⟩
  | resized hsize hr hcount =>
    refine ⟨⟨hk.type.trans h.type, hk.file, ?_⟩, fun hret => absurd rfl hret⟩
    rw [hr.nblocks, hr.size]
    rfl
  | full hsize hr hlt hcount hf =>
    have hnb := hr.nblocks
    rcases hs with hle | hno
    · exact absurd hle (Nat.not_le.mpr hcount)
    · obtain ⟨fs'', heq⟩ := sfsTruncfile_noBlock h.file hno hn hsize (by omega)
      rw [heq] at hrun
      injection hrun with hrun
      injection hrun with _ hrun
      injection hrun with _ hsin
      rw [← hsin] at hk ⊢
      exact ⟨⟨h.type, hk.file, h.nblocks⟩, fun _ => rfl⟩

theorem Transferred.metadata {buf : Mem} {write : Bool} {offset d : ℕ} {io : Io}
    (ht : Transferred fs sin buf write offset d io) (h : RegularFile fs sin.din)
    (hedge : d = 0 → offset ≤ sin.din.size ∨
      sin.din.blocks = offset / SFS_BLKSIZE ∧ SFS_BLKSIZE ∣ offset) :
    RegularFile io.fs io.sin.din := by
  have hnb := ht.nblocks
  have hnb₀ := h.nblocks
  refine ⟨ht.type.trans h.type, ht.file, ?_⟩
  rw [ht.size, hnb, blocksTo]
  by_cases hd : d = 0
  · rw [if_pos hd, hd]
    rcases hedge hd with hle | ⟨hb, k, rfl⟩
    · rw [SFS_BLKSIZE] at *
      omega
    · rw [SFS_BLKSIZE] at *
      omega
  · rw [if_neg hd]
    rw [SFS_BLKSIZE] at *
    omega

theorem metadata_write (h : RegularFile fs sin.din) {base : Mem} {pos : ℤ} {len : UInt64} {io : Io}
    (hs : Steady fs sin (.write base pos len))
    (hcall : IoCall fs sin base true pos len.toNat (.ok io)) : RegularFile io.fs io.sin.din := by
  cases hcall with
  | refused => exact h
  | nothing => exact h
  | @moves offset _ hpos hoff hlen hsmall hread hout =>
    subst hpos
    cases hout with
    | all hstart ht hret hfit hcount =>
      refine ht.metadata h fun hd => ?_
      rw [ioLen, if_pos rfl] at hd
      omega
    | full hstart ht hret hd hedge hblocks hfirst hcount =>
      refine ht.metadata h fun hzero => ?_
      have hnb := ht.nblocks
      by_cases hle : offset ≤ sin.din.size
      · exact Or.inl hle
      · subst hzero
        rw [blocksTo, if_pos rfl] at hnb
        rw [Nat.add_zero] at hblocks
        have hacc : Accepted (offset : ℤ) len.toNat := by
          have hmax : SFS_MAX_FILE_SIZE = (maxFileSize : ℤ) := rfl
          refine ⟨Int.natCast_nonneg _, ?_, ?_⟩
          · rw [hmax]
            omega
          · omega
        have hdvd := hs hacc (Nat.ne_of_gt hlen) (hfirst rfl) (by omega) (by
          rw [Int.toNat_natCast]
          omega)
        exact Or.inr ⟨by omega, hdvd⟩

theorem metadata_read (h : RegularFile fs sin.din) {base : Mem} {pos : ℤ} {len : ℕ} {io : Io}
    (hcall : IoCall fs sin base false pos len (.ok io)) : RegularFile io.fs io.sin.din ∧ 
      (io.ret ≠ 0 → io.sin = sin) := by
  cases hcall with
  | refused => exact ⟨h, fun _ => rfl⟩
  | nothing => exact ⟨h, fun _ => rfl⟩
  | @moves offset _ hpos hoff hlen hsmall hread hout =>
    have hlt := hread rfl
    have hnb := h.nblocks
    have hpos : ioLen false sin.din offset len ≠ 0 := by
      rw [ioLen, if_neg Bool.false_ne_true]
      omega
    have hend : offset + ioLen false sin.din offset len ≤ sin.din.size := by
      rw [ioLen, if_neg Bool.false_ne_true]
      omega
    cases hout with
    | all hstart ht hret hfit hcount =>
      exact ⟨ht.metadata h fun hd => absurd hd hpos, fun hne => absurd hret hne⟩
    | full hstart ht hret hd hedge hblocks hfirst hcount =>
      -- all blocks of a read are there
      have hle : min (blocksTo offset (ioLen false sin.din offset len)) maxBlocks ≤
          sin.din.blocks := by
        refine (Nat.min_le_left _ _).trans ?_
        rw [blocksTo, if_neg hpos, hnb]
        rw [SFS_BLKSIZE] at *
        omega
      rw [demand_of_le hle] at hcount
      omega

/-- **One steady call.** -/
theorem NodeCall.metadata (h : RegularFile fs sin.din) (hs : Steady fs sin c)
    (hrun : c.run fs sin = .ok (ret, fs', sin')) : KeepsMetadata fs' sin sin' c ret := by
  cases c with
  | write base pos len =>
    have hcall := sfsIoNolock_call base true pos h.ne_dir h.file
      len.toNat_lt
    rw [NodeCall.run] at hrun
    generalize sfsIoNolock fs sin base pos len.toNat true = x at hcall hrun
    cases x with
    | error p => cases hrun
    | ok io =>
      cases hrun
      exact ⟨metadata_write h hs hcall, fun _ hne => absurd rfl (hne _ _ _)⟩
  | read base pos len =>
    have hcall := sfsIoNolock_call base false pos h.ne_dir h.file
      len.toNat_lt
    rw [NodeCall.run] at hrun
    generalize sfsIoNolock fs sin base pos len.toNat false = x at hcall hrun
    cases x with
    | error p => cases hrun
    | ok io =>
      cases hrun
      obtain ⟨hreg, hsame⟩ := metadata_read h hcall
      exact ⟨hreg, fun hret _ => hsame hret⟩
  | tryseek pos =>
    have hconst : SFS_MAX_FILE_SIZE = (maxFileSize : ℤ) := rfl
    rw [NodeCall.run, sfsTryseek] at hrun
    by_cases hrange : pos < 0 ∨ pos ≥ SFS_MAX_FILE_SIZE
    · rw [if_pos hrange] at hrun
      cases hrun
      exact ⟨h, fun _ _ => rfl⟩
    · rw [if_neg hrange] at hrun
      by_cases hgt : pos > sin.din.size
      · rw [if_pos hgt] at hrun
        obtain ⟨n, rfl⟩ := Int.eq_ofNat_of_zero_le (show 0 ≤ pos by omega)
        obtain ⟨hreg, hsame⟩ := Truncated.metadata h (by omega) hrun (hs hgt (by omega))
        exact ⟨hreg, fun hret _ => hsame hret⟩
      · rw [if_neg hgt] at hrun
        cases hrun
        exact ⟨h, fun _ _ => rfl⟩
  | truncate len =>
    have hconst : SFS_MAX_FILE_SIZE = (maxFileSize : ℤ) := rfl
    rw [NodeCall.run] at hrun
    by_cases hrange : len < 0 ∨ len > SFS_MAX_FILE_SIZE
    · rw [sfsTruncfile_refused hrange] at hrun
      cases hrun
      exact ⟨h, fun _ _ => rfl⟩
    · obtain ⟨n, rfl⟩ := Int.eq_ofNat_of_zero_le (show 0 ≤ len by omega)
      obtain ⟨hreg, hsame⟩ := Truncated.metadata h (by omega) hrun (hs (by omega) (by omega))
      exact ⟨hreg, fun hret _ => hsame hret⟩

/-! ### Runs -/

variable [DecidableEq ι] [DecidableEq δ] {s s' s₀ : Files ι δ} {op : FileOp ι δ}

/-- A steady call that returns. -/
def Files.SteadyStep (s s' : Files ι δ) : Prop :=
  ∃ op ret, FileOp.Meets Steady s op ∧ FileOp.run s op = .ok (ret, s')

theorem RegularFiles.set {s : Image ι} {j : ι} (h : RegularFiles s)
    (hp : Private s.fs (s.inode j).din fs' sin'.din) (hreg : RegularFile fs' sin'.din) :
    RegularFiles (s.set j fs' sin') := by
  refine ⟨fun l => ?_, h.apart.set (fun l => (h.file l).file) hp⟩
  by_cases hl : l = j
  · rw [hl, s.set_inode_self]
    exact hreg
  · rw [s.set_inode_of_ne _ _ hl]
    exact ⟨(h.file l).type, (h.apart.untouched hp hl (h.file l).file).file, (h.file l).nblocks⟩

theorem RegularFiles.step (h : RegularFiles s.image) (hs : op.Meets Steady s)
    (hrun : op.run s = .ok (ret, s')) :
    RegularFiles s'.image ∧
      (ret ≠ 0 → (∀ d base len, op ≠ .write d base len) → s'.image.inode = s.image.inode) := by
  have heff := op.effect s
  rw [hrun] at heff
  cases hnode : op.nodeCall s with
  | none =>
    rw [hnode] at heff
    cases heff with
    | idle himage =>
      rw [himage]
      exact ⟨h, fun _ _ => rfl⟩
  | some jc =>
    obtain ⟨j, c⟩ := jc
    rw [hnode] at heff
    cases heff with
    | @returns _ _ _ fs sin _ hcall himage =>
      have hkept := NodeCall.kept (h.file j).file (h.file j).type (h.file j).bounded hcall
      obtain ⟨hreg, hatomic⟩ := NodeCall.metadata (h.file j) (hs j c hnode) hcall
      rw [himage]
      refine ⟨h.set hkept.priv hreg, fun hret hop => ?_⟩
      have hsame : sin = s.image.inode j := by
        refine hatomic hret fun base pos len hc => ?_
        rw [hc] at hnode
        obtain ⟨d, hd⟩ := FileOp.eq_write hnode
        exact hop d base len hd
      rw [hsame]
      exact Function.update_eq_self _ _

/-- **Metadata.** -/
theorem metadata_holds (h₀ : RegularFiles s₀.image)
    (hrun : ReflTransGen Files.SteadyStep s₀ s) :
    (∀ j, (s.image.inode j).din.blocks = ((s.image.inode j).din.size + 4096 - 1) / 4096) ∧
    (∀ op : FileOp ι δ, op.run s ≠ .error .truncBlocks) ∧
    ∀ (op : FileOp ι δ) ret s', op.Meets Steady s → (∀ d base len, op ≠ .write d base len) →
      op.run s = .ok (ret, s') → ret ≠ 0 → s'.image.inode = s.image.inode := by
  have h : RegularFiles s.image := by
    refine Transition.invariant (P := fun s : Files ι δ => RegularFiles s.image) ?_ hrun h₀
    intro a b ha hab
    obtain ⟨op, ret, hs, hop⟩ := hab
    exact (ha.step hs hop).1
  refine ⟨fun j => (h.file j).nblocks, fun op => ?_, fun op ret s' hs hop hr hret =>
    (h.step hs hr).2 hret hop⟩
  rw [FileOp.run_ne_error]
  intro j c hc
  have hout := c.outcome (h.file j).file (h.file j).type (h.file j).bounded
  generalize c.run s.image.fs (s.image.inode j) = x at hout
  cases hout with
  | mismatch _ _ hn =>
    cases c with
    | truncate len => exact absurd (fun _ => (h.file j).nblocks.symm) hn
    | write => exact absurd trivial hn
    | read => exact absurd trivial hn
    | tryseek => exact absurd trivial hn
  | hole => exact fun h => nomatch h
  | outOfRange => exact fun h => nomatch h
  | returns => exact fun h => nomatch h

/-- Eight blocks, one of them free. -/
def lastBlockFs : Fs :=
  { blocks := 8, unusedBlocks := 1, freemap := ⟨32, 1, fun _ => 0x80⟩, superDirty := false,
    disk := fun _ _ => 0 }

theorem fsOk_lastBlockFs : FsOk lastBlockFs := ⟨rfl, by decide, by decide, by decide, by decide⟩

/-- A write of one byte takes the last block, and then a seek that needs two more is refused. -/
theorem metadata_holds_tiny : ∃ s₁ s₂ : Files Unit Bool,
    FileOp.run (oneDescriptor lastBlockFs) (.write false (fun _ => 1) 1) = .ok (0, s₁) ∧
    FileOp.run s₁ (.seek false 12288 0) = .ok (-E_NO_MEM, s₂) ∧
    (s₂.image.inode ()).din.size = 1 ∧ (s₂.image.inode ()).din.blocks = 1 ∧
    ∀ op : FileOp Unit Bool, op.run s₂ ≠ .error .truncBlocks := by
  have hregular : RegularFiles (oneDescriptor lastBlockFs).image :=
    regularFiles_oneDescriptor fsOk_lastBlockFs
  have hcheck : (FileOp.run (oneDescriptor lastBlockFs) (.write false (fun _ => 1) 1)).toOption.any
      (fun r => decide (r.1 = 0 ∧ (r.2.image.inode ()).din.size = 1 ∧
        (r.2.image.inode ()).din.blocks = 1 ∧ (r.2.fd false).isSome ∧
        blockAt r.2.image.fs (r.2.image.inode ()).din 1 = 0 ∧
        r.2.image.fs.freemap.count = 0)) = true := by
    decide +kernel
  obtain ⟨⟨ret, s₁⟩, hwrite, hs₁⟩ := Fallible.exists_ok_of_any hcheck
  obtain ⟨rfl, hsize, hblocks, hfd, hnext, hcount⟩ := of_decide_eq_true hs₁
  dsimp only at hsize hblocks hfd hnext hcount
  have hsteady : FileOp.Meets Steady (oneDescriptor lastBlockFs)
      (.write false (fun _ => 1) 1 : FileOp Unit Bool) := by
    intro j c hc
    cases hc
    exact fun _ _ _ hlt => absurd hlt (by decide)
  have hfile := (hregular.step hsteady hwrite).1.file ()
  have hno : NoBlock s₁.image.fs (s₁.image.inode ()).din := by
    rw [NoBlock, hblocks, hcount]
    exact ⟨by decide, hnext, by rw [cost]; split <;> decide⟩
  obtain ⟨fs', hgrow⟩ := sfsTruncfile_noBlock (n := 12288) hfile.file hno (by decide) (by omega)
    (by rw [hblocks]; decide)
  obtain ⟨file, hfile'⟩ := Option.isSome_iff_exists.mp hfd
  let s₂ : Files Unit Bool := { s₁ with image := s₁.image.set () fs' (s₁.image.inode ()) }
  have hseek : FileOp.run s₁ (.seek false 12288 0) = .ok (-E_NO_MEM, s₂) := by
    rw [FileOp.run, fileSeek, hfile']
    show (sfsTryseek s₁.image.fs (s₁.image.inode ()) 12288 >>= _) = _
    rw [sfsTryseek, if_neg (by decide), if_pos (by rw [hsize]; decide),
      show (12288 : ℤ) = ((12288 : ℕ) : ℤ) from rfl, hgrow]
    rfl
  have hsteady' : FileOp.Meets Steady s₁ (.seek false 12288 0 : FileOp Unit Bool) := by
    intro j c hc
    rw [FileOp.nodeCall, hfile'] at hc
    cases hc
    exact fun _ _ => Or.inr hno
  have hrun : ReflTransGen Files.SteadyStep (oneDescriptor lastBlockFs) s₂ :=
    .tail (.single ⟨_, _, hsteady, hwrite⟩) ⟨_, _, hsteady', hseek⟩
  refine ⟨s₁, s₂, hwrite, hseek, ?_, ?_, (metadata_holds hregular hrun).2.1⟩
  · exact hsize
  · exact hblocks

/-- A seek that needs two blocks where one is free keeps the block, and the next truncation of the
empty file stops the kernel. -/
theorem growth_is_not_atomic : RegularFiles (oneDescriptor lastBlockFs).image ∧
    ∃ s₁, fileSeek (oneDescriptor lastBlockFs) false 8192 0 = .ok (-E_NO_MEM, s₁) ∧
      (s₁.image.inode ()).din.size = 0 ∧ (s₁.image.inode ()).din.blocks = 1 ∧
      fileOpen s₁ true () (O_RDWR ||| O_TRUNC) = .error .truncBlocks := by
  have hrun : ∃ fs sin, sfsTruncfile lastBlockFs emptyFile 8192 = .ok (-E_NO_MEM, fs, sin) ∧
      sin.din.size = 0 ∧ sin.din.blocks = 1 ∧ sfsTruncfile fs sin 0 = .error .truncBlocks :=
    ⟨_, _, rfl, rfl, rfl, rfl⟩
  obtain ⟨fs, sin, h₁, hsize, hblocks, h₂⟩ := hrun
  have hseek : sfsTryseek lastBlockFs emptyFile 8192 = sfsTruncfile lastBlockFs emptyFile 8192 := by
    rw [sfsTryseek, if_neg (by decide), if_pos (by decide)]
  let s₁ : Files Unit Bool :=
    { oneDescriptor lastBlockFs with image := (oneDescriptor lastBlockFs).image.set () fs sin }
  refine ⟨regularFiles_oneDescriptor fsOk_lastBlockFs, s₁, ?_, hsize, hblocks, ?_⟩
  · show (sfsTryseek lastBlockFs emptyFile 8192 >>= _) = _
    rw [hseek, h₁]
    rfl
  · show ((if _ then sfsTruncfile fs sin 0 else _) >>= _) = _
    rw [if_pos (by decide), h₂]
    rfl

end Ucore.Sfs
