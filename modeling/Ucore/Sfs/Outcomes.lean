import Ucore.Sfs.Contents

/-!
# Byte arrays, also where calls fail

`contents_refine` is about calls that succeed.  A call may also be refused, and it may find no free block in the
middle: the size of a file can then run ahead of its blocks, by a part of a block.

* `Blank`: the bytes behind the end of a file, and those of blocks that it does not count, are zeros.  Every call
  keeps this (`Leaves`), whatever it returns.
* `ByteFiles.Call` says what a call does to byte arrays, for each value that it returns.
* **`calls_refine`**: every run of calls that return is such a run on byte arrays.
-/

namespace Ucore.Sfs

open Memory Relation Bytes Transition

variable {ι δ : Type} {fs fs' : Fs} {sin sin' : Inode} {buf : Mem} {offset d n : ℕ} {f : List UInt8}
variable {io : Io} {pos : ℤ} {len : ℕ} {ret : ℤ}

/-! ### One file -/

/-- The bytes behind the end, and in the blocks that the file does not count, are zeros. -/
def Blank (fs : Fs) (din : DiskInode) : Prop :=
  ∀ y, din.size ≤ y ∨ din.blocks ≤ y / SFS_BLKSIZE → y / SFS_BLKSIZE < maxBlocks → byteAt fs din y = 0

/-- The file is left in order, with the bytes `f`. -/
structure Leaves (fs : Fs) (sin : Inode) (fs' : Fs) (sin' : Inode) (f : List UInt8) : Prop where
  kept : Kept fs sin fs' sin'
  blank : Blank fs' sin'.din
  bytes : contents fs' sin'.din = f

theorem Blank.zeroTail {din : DiskInode} (h : Blank fs din) : ZeroTail fs din := fun y hy => h y (.inl hy)

/-- A well-formed file counts every block that its size reaches. -/
theorem RegularFile.blank {din : DiskInode} (h : RegularFile fs din) (hz : ZeroTail fs din) : Blank fs din := by
  have hnb := h.nblocks
  intro y hy
  refine hz y ?_
  rcases hy with hy | hy
  · exact hy
  · rw [hnb] at hy
    rw [SFS_BLKSIZE] at *
    omega

theorem Bounded.in_range {din : DiskInode} (h : Bounded din) {y : ℕ} (hy : y < din.size) :
    y / SFS_BLKSIZE < maxBlocks :=
  (Nat.div_lt_iff_lt_mul (by decide)).mpr (Nat.lt_of_lt_of_le hy h.size)

theorem Leaves.refl (h : FileOk fs sin.din) (hb : Bounded sin.din) (hz : Blank fs sin.din) :
    Leaves fs sin fs sin (contents fs sin.din) := ⟨Kept.refl h hb, hz, rfl⟩

/-- The bytes are given by a function. -/
theorem Kept.leaves {g : ℕ → UInt8} (hk : Kept fs sin fs' sin') (hg : Holds fs' sin'.din g)
    (hlen : f.length = sin'.din.size) (hf : ∀ y < sin'.din.size, y / SFS_BLKSIZE < maxBlocks → f.getD y 0 = g y)
    (hz : ∀ y, sin'.din.size ≤ y ∨ sin'.din.blocks ≤ y / SFS_BLKSIZE → y / SFS_BLKSIZE < maxBlocks → g y = 0) :
    Leaves fs sin fs' sin' f := by
  refine ⟨hk, fun y hy hr => (hg y hr).trans (hz y hy hr), contents_eq hlen fun y hy => ?_⟩
  have hr := hk.bounded.in_range hy
  exact (hf y hy hr).trans (hg y hr).symm

/-- The first `d` bytes have been written. -/
theorem Transferred.leaves_write (ht : Transferred fs sin buf true offset d io) (hk : Kept fs sin io.fs io.sin)
    (hz : Blank fs sin.din) :
    Leaves fs sin io.fs io.sin (writeAt (contents fs sin.din) offset ((List.range d).map buf)) := by
  have hsize := ht.size
  have hnb := ht.nblocks
  have hlen : ((List.range d).map buf).length = d := by rw [List.length_map, List.length_range]
  refine hk.leaves ht.bytes ?_ ?_ ?_
  · rw [length_writeAt, length_contents, hlen, hsize]
  · intro y hy hr
    rw [overlay, getD_writeAt, hlen]
    by_cases hin : offset ≤ y ∧ y < offset + d
    · rw [if_pos hin, if_pos ⟨rfl, hin⟩, getD_range_map (by omega)]
    · rw [if_neg hin, if_neg fun hc => hin hc.2, getD_contents hz.zeroTail hr]
  · intro y hy hr
    have hout : ¬ (offset ≤ y ∧ y < offset + d) := by
      rintro ⟨hle, hlt⟩
      have hblock := (Nat.div_lt_iff_lt_mul (by decide)).mpr (lt_blocksTo_mul (by omega) hlt)
      omega
    rw [overlay, if_neg fun hc => hout hc.2]
    exact hz y (by omega) hr

/-- `d` bytes have been read. -/
theorem Transferred.leaves_read (ht : Transferred fs sin buf false offset d io) (hk : Kept fs sin io.fs io.sin)
    (hle : offset + d ≤ sin.din.size) (hz : Blank fs sin.din) :
    Leaves fs sin io.fs io.sin (contents fs sin.din) := by
  have hsize := ht.size
  have hnb := ht.nblocks
  have hsame : ∀ y, overlay (byteAt fs sin.din) false buf offset d y = byteAt fs sin.din y := fun y =>
    if_neg fun hc => Bool.false_ne_true hc.1
  refine hk.leaves ht.bytes ?_ ?_ ?_
  · rw [length_contents]
    omega
  · intro y hy hr
    rw [hsame, getD_contents hz.zeroTail hr]
  · intro y hy hr
    rw [hsame]
    exact hz y (by omega) hr

/-- The file has been emptied or has grown. -/
theorem Resized.leaves (hr : Resized fs sin n fs' sin') (hk : Kept fs sin fs' sin') (hz : Blank fs sin.din)
    (hn : n = 0 ∨ sin.din.size ≤ n) :
    Leaves fs sin fs' sin' (if n = 0 then [] else padTo (contents fs sin.din) n) := by
  have hsize := hr.size
  have hnb := hr.nblocks
  refine hk.leaves hr.bytes ?_ ?_ ?_
  · by_cases hzero : n = 0
    · rw [if_pos hzero, hsize, hzero]
      rfl
    · rw [if_neg hzero, length_padTo, length_contents, hsize]
      omega
  · intro y hy hk
    have hblock := (Nat.div_lt_iff_lt_mul (by decide)).mpr (lt_blocksOf_mul (show y < n by omega))
    rw [if_neg (by omega), getD_padTo, getD_contents hz.zeroTail hk, if_neg (by omega)]
  · intro y hy hk
    by_cases hcut : blocksOf n ≤ y / SFS_BLKSIZE ∧ y / SFS_BLKSIZE < sin.din.blocks
    · exact if_pos hcut
    · refine (if_neg hcut).trans (hz y ?_ hk)
      rcases hn with rfl | hle
      · -- every block that the file counts is cut off
        have hge : blocksOf 0 ≤ y / SFS_BLKSIZE := Nat.zero_le _
        omega
      · omega

/-- The file has got blocks, but no new size. -/
theorem Reaches.leaves {m : ℕ} (hr : Reaches fs sin fs' sin' m n) (hf : Holds fs' sin'.din (byteAt fs sin.din))
    (hk : Kept fs sin fs' sin') (hz : Blank fs sin.din) : Leaves fs sin fs' sin' (contents fs sin.din) := by
  have hsize := hr.size
  have hnb := hr.nblocks
  refine hk.leaves hf ?_ ?_ ?_
  · rw [length_contents, hsize]
  · exact fun y _ hr => getD_contents hz.zeroTail hr
  · intro y hy hr
    exact hz y (by omega) hr

/-! ### One call -/

theorem inval_neg : (-E_INVAL : ℤ) < 0 := by decide

/-- How a transfer of `len` bytes at `pos` ends, of which `avail` can be transferred: with all of them, refused by
the range checks, or without a block for the rest. -/
inductive Stopped (pos : ℤ) (len avail : ℕ) : ℤ → ℕ → Prop
  | done (h : Accepted pos len) : Stopped pos len avail 0 avail
  | refused (h : ¬ Accepted pos len) : Stopped pos len avail (-E_INVAL) 0
  | full {d : ℕ} (h : Accepted pos len) (hd : d < avail) (hedge : d = 0 ∨ SFS_BLKSIZE ∣ pos.toNat + d) :
      Stopped pos len avail (-E_NO_MEM) d

/-- The range of a transfer is accepted. -/
theorem accepted_natCast (hoff : offset < maxFileSize) (hsmall : offset + len < 2 ^ 63) : Accepted offset len := by
  have hmax : SFS_MAX_FILE_SIZE = (maxFileSize : ℤ) := rfl
  exact ⟨Int.natCast_nonneg _, by omega, by omega⟩

/-- The bytes after a write that returned `ret` when it had written `data`. -/
def written (f : List UInt8) (pos : ℕ) (ret : ℤ) (data : List UInt8) : List UInt8 :=
  if data = [] ∧ ret ≠ -E_NO_MEM then f else writeAt f pos data

theorem IoCall.leaves_write (hcall : IoCall fs sin buf true pos len (.ok io)) (h : FileOk fs sin.din)
    (hb : Bounded sin.din) (hz : Blank fs sin.din) :
    Stopped pos len len io.ret io.alen ∧
      Leaves fs sin io.fs io.sin (written (contents fs sin.din) pos.toNat io.ret ((List.range io.alen).map buf)) := by
  have hk := hcall.kept h hb
  cases hcall with
  | refused hacc => exact ⟨.refused hacc, Leaves.refl h hb hz⟩
  | nothing hacc hn =>
    have hlen := hn.resolve_right fun hw => Bool.false_ne_true hw.1.symm
    subst hlen
    exact ⟨.done hacc, Leaves.refl h hb hz⟩
  | @moves offset _ hpos hoff hlen hsmall hread hout =>
    subst hpos
    have hacc := accepted_natCast hoff hsmall
    rw [Int.toNat_natCast]
    cases hout with
    | all hstart ht hret hfit =>
      have hle := (blocksTo_ioLen_write _ hoff hlen).mp hfit
      have hmax := maxBlocks_lt_maxFileSize
      rw [ioLen_write (by omega)] at ht
      have hne : (List.range len).map buf ≠ [] := by
        intro hnil
        have hlength := congrArg List.length hnil
        rw [List.length_map, List.length_range] at hlength
        exact Nat.ne_of_gt hlen hlength
      rw [hret, ht.alen, written, if_neg fun hc => hne hc.1]
      exact ⟨.done hacc, ht.leaves_write hk hz⟩
    | full hstart ht hret hd hedge =>
      rw [hret, ht.alen, written, if_neg fun hc => hc.2 rfl]
      exact ⟨.full hacc (Nat.lt_of_lt_of_le hd ioLen_le) hedge, ht.leaves_write hk hz⟩

theorem IoCall.leaves_read (hcall : IoCall fs sin buf false pos len (.ok io)) (h : FileOk fs sin.din)
    (hb : Bounded sin.din) (hz : Blank fs sin.din) :
    Stopped pos len (min len (sin.din.size - pos.toNat)) io.ret io.alen ∧
      Leaves fs sin io.fs io.sin (contents fs sin.din) ∧
      ∀ i, io.buf i = if i < io.alen then (contents fs sin.din).getD (pos.toNat + i) 0 else buf i := by
  have hk := hcall.kept h hb
  cases hcall with
  | refused hacc => exact ⟨.refused hacc, Leaves.refl h hb hz, fun i => rfl⟩
  | nothing hacc hn =>
    have hzero : min len (sin.din.size - pos.toNat) = 0 := by
      have hacc₀ := hacc.1
      omega
    rw [hzero]
    exact ⟨.done hacc, Leaves.refl h hb hz, fun i => rfl⟩
  | @moves offset _ hpos hoff hlen hsmall hread hout =>
    subst hpos
    have hacc := accepted_natCast hoff hsmall
    rw [Int.toNat_natCast]
    have hlt := hread rfl
    have hsize := hb.size
    have hmax := maxBlocks_lt_maxFileSize
    have htotal : ioLen false sin.din offset len = min len (sin.din.size - offset) := by
      rw [ioLen, if_neg Bool.false_ne_true]
      omega
    have hbuf : ∀ {d : ℕ}, Transferred fs sin buf false offset d io → offset + d ≤ sin.din.size → ∀ i,
        io.buf i = if i < io.alen then (contents fs sin.din).getD (offset + i) 0 else buf i := by
      intro d ht hle i
      rw [ht.buf, filled, ht.alen]
      by_cases hi : i < d
      · rw [if_pos ⟨rfl, hi⟩, if_pos hi, getD_contents hz.zeroTail (hb.in_range (by omega))]
      · rw [if_neg fun hc => hi hc.2, if_neg hi]
    rw [htotal] at hout
    cases hout with
    | all hstart ht hret =>
      have hle : offset + min len (sin.din.size - offset) ≤ sin.din.size := by omega
      refine ⟨?_, ht.leaves_read hk hle hz, hbuf ht hle⟩
      rw [hret, ht.alen]
      exact .done hacc
    | full hstart ht hret hd hedge =>
      refine ⟨?_, ht.leaves_read hk (by omega) hz, hbuf ht (by omega)⟩
      rw [hret, ht.alen]
      exact .full hacc hd hedge

/-- A read does not panic. -/
theorem IoCall.read_ok {x : Except Panic Io} (hcall : IoCall fs sin buf false pos len x) (hb : Bounded sin.din) :
    ∃ io, x = .ok io := by
  cases hcall with
  | refused => exact ⟨_, rfl⟩
  | nothing => exact ⟨_, rfl⟩
  | @moves offset _ hpos hoff hlen hsmall hread hout =>
    have hlt := hread rfl
    have hblocks := hb.blocks
    have hsize := hb.size
    cases hout with
    | all => exact ⟨_, rfl⟩
    | full => exact ⟨_, rfl⟩
    | hole hhole =>
      have hdiv : offset / SFS_BLKSIZE ≤ sin.din.size / SFS_BLKSIZE := Nat.div_le_div_right (Nat.le_of_lt hlt)
      omega
    | outOfRange hstart hi =>
      have hle : offset + ioLen false sin.din offset len ≤ sin.din.size := by
        rw [ioLen, if_neg Bool.false_ne_true]
        omega
      exact absurd (blocksTo_le (hle.trans hsize)) (Nat.not_le.mpr hi)

/-- The bytes that have been written lie in blocks that the file counts, and a write that stops early
leaves no block for the rest. -/
theorem IoCall.backed_write (hcall : IoCall fs sin buf true pos len (.ok io)) :
    sin.din.blocks ≤ io.sin.din.blocks ∧
      (io.alen ≠ 0 → pos.toNat + io.alen ≤ io.sin.din.blocks * SFS_BLKSIZE) ∧
      (io.ret = -E_NO_MEM → NoBlock io.fs io.sin.din) := by
  have hmoved : ∀ {offset d : ℕ}, Transferred fs sin buf true offset d io → sin.din.blocks ≤ io.sin.din.blocks ∧
      (io.alen ≠ 0 → offset + io.alen ≤ io.sin.din.blocks * SFS_BLKSIZE) := by
    intro offset d ht
    have hnb := ht.nblocks
    rw [ht.alen]
    exact ⟨by omega, fun hne => (blocksTo_bounds hne (show blocksTo offset d ≤ io.sin.din.blocks by omega)).2⟩
  cases hcall with
  | refused =>
    exact ⟨le_rfl, fun hne => absurd rfl hne, fun hret => absurd hret (show -E_INVAL ≠ -E_NO_MEM by decide)⟩
  | nothing => exact ⟨le_rfl, fun hne => absurd rfl hne, fun hret => absurd hret (show 0 ≠ -E_NO_MEM by decide)⟩
  | moves hpos hoff hlen hsmall hread hout =>
    subst hpos
    rw [Int.toNat_natCast]
    cases hout with
    | all hstart ht hret =>
      rw [hret]
      exact ⟨(hmoved ht).1, (hmoved ht).2, fun hzero => absurd hzero (by decide)⟩
    | full hstart ht hret hd hedge hblocks hfirst hcount hlast =>
      exact ⟨(hmoved ht).1, (hmoved ht).2, fun _ => hlast⟩

/-- A read takes no block from the file, and needs one only for bytes that lie in no block. -/
theorem IoCall.backed_read (hcall : IoCall fs sin buf false pos len (.ok io)) (hb : Bounded sin.din) :
    sin.din.blocks ≤ io.sin.din.blocks ∧
      (io.ret = -E_NO_MEM → sin.din.blocks < blocksTo pos.toNat (min len (sin.din.size - pos.toNat))) := by
  cases hcall with
  | refused => exact ⟨le_rfl, fun hret => absurd hret (show -E_INVAL ≠ -E_NO_MEM by decide)⟩
  | nothing => exact ⟨le_rfl, fun hret => absurd hret (show 0 ≠ -E_NO_MEM by decide)⟩
  | @moves offset _ hpos hoff hlen hsmall hread hout =>
    subst hpos
    rw [Int.toNat_natCast]
    have hlt := hread rfl
    have hsize := hb.size
    have hmax := maxBlocks_lt_maxFileSize
    have htotal : ioLen false sin.din offset len = min len (sin.din.size - offset) := by
      rw [ioLen, if_neg Bool.false_ne_true]
      omega
    rw [htotal] at hout
    cases hout with
    | all hstart ht hret =>
      rw [hret, ht.nblocks]
      exact ⟨Nat.le_max_left _ _, fun hzero => absurd hzero (by decide)⟩
    | full hstart ht hret hd hedge hblocks hfirst hcount =>
      rw [ht.nblocks]
      refine ⟨Nat.le_max_left _ _, fun _ => ?_⟩
      by_contra hle
      rw [demand_of_le ((Nat.min_le_left _ _).trans (Nat.not_lt.mp hle))] at hcount
      exact Nat.not_lt_zero _ hcount

theorem leaves_tryseek (hrun : sfsTryseek fs sin pos = .ok (ret, fs', sin')) (h : FileOk fs sin.din)
    (hb : Bounded sin.din) (hz : Blank fs sin.din) :
    ret = 0 ∧ 0 ≤ pos ∧ pos < SFS_MAX_FILE_SIZE ∧ Leaves fs sin fs' sin' (padTo (contents fs sin.din) pos.toNat) ∨
      ret < 0 ∧ Leaves fs sin fs' sin' (contents fs sin.din) := by
  have hmax : SFS_MAX_FILE_SIZE = (maxFileSize : ℤ) := rfl
  have hbound := hb.size
  have hfit := maxBlocks_lt_maxFileSize
  have hcall := sfsTryseek_call pos h
  rw [hrun] at hcall
  cases hcall with
  | refused => exact .inr ⟨by decide, Leaves.refl h hb hz⟩
  | inside h₀ hle =>
    rw [padTo_of_le (show pos.toNat ≤ (contents fs sin.din).length by rw [length_contents]; omega)]
    exact .inl ⟨rfl, h₀, by omega, Leaves.refl h hb hz⟩
  | grows hpos hn hgt ht =>
    have hk := ht.kept h hb
    subst hpos
    rw [Int.toNat_natCast]
    cases ht with
    | same hsize => omega
    | resized hsize hr =>
      have hl := hr.leaves hk hz (.inr (Nat.le_of_lt hgt))
      rw [if_neg (by omega)] at hl
      exact .inl ⟨rfl, by omega, by omega, hl⟩
    | full hsize hr hlt hcount hf => exact .inr ⟨by decide, hr.leaves hf hk hz⟩

theorem leaves_truncate (hrun : sfsTruncfile fs sin 0 = .ok (ret, fs', sin')) (h : FileOk fs sin.din)
    (hb : Bounded sin.din) (hz : Blank fs sin.din) : ret = 0 ∧ Leaves fs sin fs' sin' [] := by
  have ht := sfsTruncfile_spec h (Nat.zero_le maxFileSize)
  rw [Nat.cast_zero, hrun] at ht
  have hk := ht.kept h hb
  cases ht with
  | same hsize =>
    have hempty : contents fs sin.din = [] := by
      rw [contents, hsize]
      rfl
    rw [← hempty]
    exact ⟨rfl, Leaves.refl h hb hz⟩
  | resized hsize hr => exact ⟨rfl, hr.leaves hk hz (.inl rfl)⟩
  | full hsize hr hlt => exact absurd hlt (Nat.not_lt_zero _)

/-! ### Several files -/

/-- What a call that returns `ret` does to files that are byte arrays. -/
inductive ByteFiles.Call [DecidableEq ι] [DecidableEq δ] (s : ByteFiles ι δ) :
    FileOp ι δ → ℤ → ByteFiles ι δ → Prop
  | refused {op : FileOp ι δ} {ret : ℤ} (h : ret < 0) : s.Call op ret s
  | write {d : δ} {base : Mem} {len : UInt64} {file : File ι} {ret : ℤ} {n : ℕ} (hfd : s.fd d = some file)
      (hw : file.writable = true) (h : Stopped file.pos len.toNat len.toNat ret n) :
      s.Call (.write d base len) ret
        ⟨Function.update s.bytes file.node
          (written (s.bytes file.node) file.pos.toNat ret ((List.range n).map base)),
          Function.update s.fd d (some { file with pos := file.pos + n })⟩
  | read {d : δ} {base : Mem} {len : UInt64} {file : File ι} {ret : ℤ} {n : ℕ} (hfd : s.fd d = some file)
      (hr : file.readable = true)
      (h : Stopped file.pos len.toNat (min len.toNat ((s.bytes file.node).length - file.pos.toNat)) ret n) :
      s.Call (.read d base len) ret ⟨s.bytes, Function.update s.fd d (some { file with pos := file.pos + n })⟩
  | seek {d : δ} {pos p : ℤ} {whence : ℕ} {file : File ι} (hfd : s.fd d = some file)
      (htarget : seekTarget pos whence file.pos (s.bytes file.node).length = some p) (h₀ : 0 ≤ p)
      (hmax : p < SFS_MAX_FILE_SIZE) :
      s.Call (.seek d pos whence) 0
        ⟨Function.update s.bytes file.node (padTo (s.bytes file.node) p.toNat),
          Function.update s.fd d (some { file with pos := p })⟩
  | open {d : δ} {j : ι} {flags : BitVec 32} {canWrite : Bool} {bytes : ι → List UInt8}
      (hfd : s.fd d = none) (hmode : accessMode flags = some canWrite) (hcheck : vfsOpenCheck flags canWrite = 0)
      (hbytes : bytes = if testFlag flags O_TRUNC = true ∨ testFlag flags O_CREAT = true then
        Function.update s.bytes j [] else s.bytes) :
      s.Call (.open d j flags) 0 ⟨bytes, Function.update s.fd d
        (some ⟨j, if testFlag flags O_APPEND then ((bytes j).length : ℤ) else 0, flags &&& O_ACCMODE != O_WRONLY,
          canWrite⟩)⟩

theorem vfsOpenCheck_neg {flags : BitVec 32} {canWrite : Bool} (h : vfsOpenCheck flags canWrite ≠ 0) :
    vfsOpenCheck flags canWrite < 0 := by
  rw [vfsOpenCheck] at h ⊢
  by_cases htrunc : testFlag flags O_TRUNC = true ∧ canWrite = false
  · rw [if_pos htrunc]
    exact inval_neg
  · rw [if_neg htrunc] at h ⊢
    by_cases hexcl : testFlag flags O_EXCL = true ∧ testFlag flags O_CREAT = true
    · rw [if_pos hexcl]
      decide
    · exact absurd (if_neg hexcl) h

/-- Regular files in any state that a run may leave them in, with zeros where they hold nothing. -/
structure BlankFiles (s : Image ι) : Prop where
  ok : FilesOk s
  blank : ∀ j, Blank s.fs (s.inode j).din

theorem CleanFiles.blankFiles {s : Image ι} (h : CleanFiles s) : BlankFiles s :=
  ⟨h.regular.filesOk, fun j => (h.regular.file j).blank (h.tail j)⟩

section

variable [DecidableEq ι]

/-- **One file is left with the bytes `f`**; the others are as they were. -/
theorem BlankFiles.set {s : Image ι} {j : ι} (h : BlankFiles s) (hl : Leaves s.fs (s.inode j) fs' sin' f) :
    BlankFiles (s.set j fs' sin') ∧ (fun l => contents fs' ((s.set j fs' sin').inode l).din) =
      Function.update (fun l => contents s.fs (s.inode l).din) j f := by
  have hother : ∀ l, l ≠ j → Untouched s.fs fs' sin'.din (s.inode l).din := fun l hne =>
    h.ok.apart.untouched hl.kept.priv hne (h.ok.file l)
  refine ⟨⟨h.ok.set hl.kept, fun l => ?_⟩, funext fun l => ?_⟩
  · by_cases hlj : l = j
    · rw [hlj, s.set_inode_self]
      exact hl.blank
    · rw [s.set_inode_of_ne _ _ hlj]
      intro y hy hr
      exact ((hother l hlj).bytes y hr).trans (h.blank l y hy hr)
  · by_cases hlj : l = j
    · rw [hlj, s.set_inode_self, Function.update_self]
      exact hl.bytes
    · rw [s.set_inode_of_ne _ _ hlj, Function.update_of_ne hlj]
      refine contents_eq (length_contents _ _) fun y hy => ?_
      have hr := (h.ok.bounded l).in_range hy
      rw [getD_contents (h.blank l).zeroTail hr]
      exact ((hother l hlj).bytes y hr).symm

/-- Nothing has changed in the files. -/
theorem BlankFiles.set_same {s : Image ι} {j : ι} (h : BlankFiles s)
    (hl : Leaves s.fs (s.inode j) fs' sin' (contents s.fs (s.inode j).din)) :
    BlankFiles (s.set j fs' sin') ∧ (fun l => contents fs' ((s.set j fs' sin').inode l).din) =
      fun l => contents s.fs (s.inode l).din := by
  obtain ⟨hblank, hbytes⟩ := h.set hl
  exact ⟨hblank, hbytes.trans (Function.update_eq_self _ _)⟩

variable [DecidableEq δ] {s s' s₀ : Files ι δ} {op : FileOp ι δ}

/-- The number of blocks of a file. -/
def Files.blocks (s : Files ι δ) (j : ι) : ℕ := (s.image.inode j).din.blocks

/-- A call that returns, with what it returns. -/
def Files.Returns (s : Files ι δ) (call : FileOp ι δ × ℤ) (s' : Files ι δ) : Prop := call.1.run s = .ok (call.2, s')

/-- A write through a descriptor that may write. -/
theorem BlankFiles.write_opened (h : BlankFiles s.image) {d : δ} {base : Mem} {len : UInt64} {file : File ι}
    (hfd : s.fd d = some file) (hw : file.writable = true) (hrun : fileWrite s d base len = .ok (ret, n, s')) :
    BlankFiles s'.image ∧ Stopped file.pos len.toNat len.toNat ret n ∧
      s'.view = ⟨Function.update s.view.bytes file.node
          (written (s.view.bytes file.node) file.pos.toNat ret ((List.range n).map base)),
        Function.update s.fd d (some { file with pos := file.pos + n })⟩ ∧
      s.blocks file.node ≤ s'.blocks file.node ∧
      (n ≠ 0 → file.pos.toNat + n ≤ s'.blocks file.node * SFS_BLKSIZE) ∧
      (ret = -E_NO_MEM → NoBlock s'.image.fs (s'.image.inode file.node).din) := by
  have hty : (s.image.inode file.node).din.type ≠ SFS_TYPE_DIR := by
    rw [h.ok.type]
    decide
  have hcall := sfsIoNolock_call base true file.pos hty (h.ok.file file.node) len.toNat_lt
  rw [fileWrite, hfd] at hrun
  dsimp only at hrun
  rw [if_neg (by rw [hw]; decide)] at hrun
  generalize sfsIoNolock s.image.fs (s.image.inode file.node) base file.pos len.toNat true = x at hcall hrun
  cases x with
  | error p => cases hrun
  | ok io =>
    injection hrun with hrun
    injection hrun with hret hrun
    injection hrun with hn hs'
    obtain ⟨hstop, hl⟩ := hcall.leaves_write (h.ok.file _) (h.ok.bounded _) (h.blank _)
    obtain ⟨hblank, hbytes⟩ := h.set hl
    have hret : io.ret = ret := hret
    rw [hret] at hstop hbytes
    subst hn
    rw [← hs']
    have hbacked := hcall.backed_write
    have hself : (s.image.set file.node io.fs io.sin).inode file.node = io.sin := s.image.set_inode_self _ _ _
    rw [← hself, hret] at hbacked
    exact ⟨hblank, hstop, view_setFd _ _ hbytes, hbacked⟩

/-- A read through a descriptor that may read, with the buffer that it fills. -/
theorem BlankFiles.read_opened (h : BlankFiles s.image) {d : δ} (base : Mem) (len : UInt64) {file : File ι}
    (hfd : s.fd d = some file) (hr : file.readable = true) :
    ∃ ret n buf s', fileRead s d base len = .ok (ret, n, buf, s') ∧ BlankFiles s'.image ∧
      Stopped file.pos len.toNat (min len.toNat ((s.view.bytes file.node).length - file.pos.toNat)) ret n ∧
      s'.view = ⟨s.view.bytes, Function.update s.fd d (some { file with pos := file.pos + n })⟩ ∧
      (∀ i, buf i = if i < n then (s.view.bytes file.node).getD (file.pos.toNat + i) 0 else base i) ∧
      s.blocks file.node ≤ s'.blocks file.node ∧
      (ret = -E_NO_MEM → s.blocks file.node <
        blocksTo file.pos.toNat (min len.toNat ((s.view.bytes file.node).length - file.pos.toNat))) := by
  have hty : (s.image.inode file.node).din.type ≠ SFS_TYPE_DIR := by
    rw [h.ok.type]
    decide
  have hcall := sfsIoNolock_call base false file.pos hty (h.ok.file file.node) len.toNat_lt
  rw [fileRead, hfd]
  dsimp only
  rw [if_neg (by rw [hr]; decide)]
  generalize sfsIoNolock s.image.fs (s.image.inode file.node) base file.pos len.toNat false = x at hcall
  obtain ⟨io, rfl⟩ := hcall.read_ok (h.ok.bounded _)
  obtain ⟨hstop, hl, hfill⟩ := hcall.leaves_read (h.ok.file _) (h.ok.bounded _) (h.blank _)
  obtain ⟨hblank, hbytes⟩ := h.set_same hl
  rw [← length_contents s.image.fs] at hstop
  obtain ⟨hmono, hfull⟩ := hcall.backed_read (h.ok.bounded _)
  have hself : (s.image.set file.node io.fs io.sin).inode file.node = io.sin := s.image.set_inode_self _ _ _
  rw [← hself] at hmono
  rw [← length_contents s.image.fs] at hfull
  exact ⟨_, _, _, _, rfl, hblank, hstop, view_setFd _ _ hbytes, hfill, hmono, hfull⟩

theorem BlankFiles.write (h : BlankFiles s.image) {d : δ} {base : Mem} {len : UInt64}
    (hrun : s.Returns (.write d base len, ret) s') :
    BlankFiles s'.image ∧ s.view.Call (.write d base len) ret s'.view := by
  rw [Files.Returns, FileOp.run] at hrun
  cases hfd : s.fd d with
  | none =>
    rw [fileWrite, hfd] at hrun
    cases hrun
    exact ⟨h, .refused inval_neg⟩
  | some file =>
    by_cases hw : file.writable = true
    · cases hwrite : fileWrite s d base len with
      | error p =>
        rw [hwrite] at hrun
        cases hrun
      | ok r =>
        obtain ⟨result, n, s₁⟩ := r
        rw [hwrite] at hrun
        injection hrun with hrun
        injection hrun with hret hs'
        rw [hret, hs'] at hwrite
        obtain ⟨hblank, hstop, hview, -⟩ := h.write_opened hfd hw hwrite
        rw [hview]
        exact ⟨hblank, .write hfd hw hstop⟩
    · rw [fileWrite, hfd] at hrun
      dsimp only at hrun
      rw [if_pos (Bool.eq_false_of_not_eq_true hw)] at hrun
      cases hrun
      exact ⟨h, .refused inval_neg⟩

/-- A read, with the buffer that it fills. -/
theorem BlankFiles.read (h : BlankFiles s.image) {d : δ} {base buf : Mem} {len : UInt64} {n : ℕ}
    (hrun : fileRead s d base len = .ok (ret, n, buf, s')) :
    (BlankFiles s'.image ∧ s.view.Call (.read d base len) ret s'.view) ∧
      (n = 0 ∧ buf = base ∨ ∃ file, s.fd d = some file ∧ ∀ i, buf i =
        if i < n then (s.view.bytes file.node).getD (file.pos.toNat + i) 0 else base i) := by
  cases hfd : s.fd d with
  | none =>
    rw [fileRead, hfd] at hrun
    cases hrun
    exact ⟨⟨h, .refused inval_neg⟩, .inl ⟨rfl, rfl⟩⟩
  | some file =>
    by_cases hr : file.readable = true
    · obtain ⟨_, _, _, _, hread, hblank, hstop, hview, hfill, -⟩ := h.read_opened base len hfd hr
      rw [hread] at hrun
      cases hrun
      rw [hview]
      exact ⟨⟨hblank, .read hfd hr hstop⟩, .inr ⟨file, rfl, hfill⟩⟩
    · rw [fileRead, hfd] at hrun
      dsimp only at hrun
      rw [if_pos (Bool.eq_false_of_not_eq_true hr)] at hrun
      cases hrun
      exact ⟨⟨h, .refused inval_neg⟩, .inl ⟨rfl, rfl⟩⟩

theorem BlankFiles.seek (h : BlankFiles s.image) {d : δ} {pos : ℤ} {whence : ℕ}
    (hrun : s.Returns (.seek d pos whence, ret) s') :
    BlankFiles s'.image ∧ s.view.Call (.seek d pos whence) ret s'.view := by
  rw [Files.Returns, FileOp.run, fileSeek] at hrun
  cases hfd : s.fd d with
  | none =>
    rw [hfd] at hrun
    cases hrun
    exact ⟨h, .refused inval_neg⟩
  | some file =>
    rw [hfd] at hrun
    dsimp only at hrun
    cases htarget : seekTarget pos whence file.pos (s.image.inode file.node).din.size with
    | none =>
      rw [htarget] at hrun
      cases hrun
      exact ⟨h, .refused inval_neg⟩
    | some p =>
      rw [htarget] at hrun
      dsimp only at hrun
      cases hseek : sfsTryseek s.image.fs (s.image.inode file.node) p with
      | error e =>
        rw [hseek] at hrun
        cases hrun
      | ok r =>
        obtain ⟨result, fs, sin⟩ := r
        rw [hseek, ok_bind] at hrun
        dsimp only at hrun
        rcases leaves_tryseek hseek (h.ok.file _) (h.ok.bounded _) (h.blank _) with
          ⟨hret, h₀, hmax, hl⟩ | ⟨hret, hl⟩
        · rw [if_pos hret] at hrun
          injection hrun with hrun
          injection hrun with hzero hs'
          obtain ⟨hblank, hbytes⟩ := h.set hl
          rw [← length_contents s.image.fs] at htarget
          rw [← hs', ← hzero]
          refine ⟨hblank, ?_⟩
          rw [view_setFd _ _ hbytes]
          exact .seek hfd htarget h₀ hmax
        · rw [if_neg (Int.ne_of_lt hret)] at hrun
          injection hrun with hrun
          injection hrun with heq hs'
          obtain ⟨hblank, hbytes⟩ := h.set_same hl
          rw [← hs', ← heq]
          refine ⟨hblank, ?_⟩
          have hview : Files.view { s with image := s.image.set file.node fs sin } = s.view :=
            congrArg (fun bytes => (⟨bytes, s.fd⟩ : ByteFiles ι δ)) hbytes
          rw [hview]
          exact .refused hret

theorem BlankFiles.open (h : BlankFiles s.image) {d : δ} {j : ι} {flags : BitVec 32}
    (hrun : s.Returns (.open d j flags, ret) s') :
    BlankFiles s'.image ∧ s.view.Call (.open d j flags) ret s'.view := by
  rw [Files.Returns, FileOp.run_open] at hrun
  cases hmode : accessMode flags with
  | none =>
    rw [hmode] at hrun
    cases hrun
    exact ⟨h, .refused inval_neg⟩
  | some canWrite =>
    rw [hmode] at hrun
    dsimp only at hrun
    by_cases hfd : (s.fd d).isSome = true
    · rw [if_pos hfd] at hrun
      cases hrun
      exact ⟨h, .refused (show -E_MAX_OPEN < 0 by decide)⟩
    · rw [if_neg hfd] at hrun
      have hnone : s.view.fd d = none := Option.not_isSome_iff_eq_none.mp hfd
      by_cases hcheck : vfsOpenCheck flags canWrite ≠ 0
      · rw [if_pos hcheck] at hrun
        injection hrun with hrun
        injection hrun with hret hs'
        rw [← hs', ← hret]
        exact ⟨h, .refused (vfsOpenCheck_neg hcheck)⟩
      · have hzero := not_not.mp hcheck
        rw [if_neg hcheck] at hrun
        by_cases ht : testFlag flags O_TRUNC = true ∨ testFlag flags O_CREAT = true
        · rw [if_pos ht] at hrun
          cases htr : sfsTruncfile s.image.fs (s.image.inode j) 0 with
          | error e =>
            rw [htr] at hrun
            cases hrun
          | ok r =>
            obtain ⟨result, fs, sin⟩ := r
            obtain ⟨hresult, hl⟩ := leaves_truncate htr (h.ok.file j) (h.ok.bounded j) (h.blank j)
            rw [htr, ok_bind] at hrun
            dsimp only at hrun
            rw [if_neg (not_not.mpr hresult)] at hrun
            injection hrun with hrun
            injection hrun with hret hs'
            have hlen := length_contents fs sin.din
            obtain ⟨hblank, hbytes⟩ := h.set hl
            rw [hl.bytes] at hlen
            rw [← hs', ← hret]
            refine ⟨hblank, ?_⟩
            rw [view_setFd _ _ hbytes, ← hlen]
            have hself := Function.update_self j [] s.view.bytes
            have hopen := ByteFiles.Call.open (j := j) hnone hmode hzero (if_pos ht).symm
            rw [hself] at hopen
            exact hopen
        · rw [if_neg ht, ok_bind] at hrun
          dsimp only at hrun
          rw [if_neg (not_not.mpr rfl), s.image.set_self] at hrun
          injection hrun with hrun
          injection hrun with hret hs'
          rw [← hs', ← hret]
          refine ⟨h, ?_⟩
          have hopen := ByteFiles.Call.open (j := j) hnone hmode hzero (if_neg ht).symm
          dsimp only [Files.view] at hopen
          rw [length_contents] at hopen
          exact hopen

/-- **One call that returns.** -/
theorem BlankFiles.step (h : BlankFiles s.image) (hrun : s.Returns (op, ret) s') :
    BlankFiles s'.image ∧ s.view.Call op ret s'.view := by
  cases op with
  | write d base len => exact h.write hrun
  | read d base len =>
    rw [Files.Returns, FileOp.run] at hrun
    cases hread : fileRead s d base len with
    | error p =>
      rw [hread] at hrun
      cases hrun
    | ok r =>
      obtain ⟨result, n, buf, s₁⟩ := r
      rw [hread] at hrun
      injection hrun with hrun
      injection hrun with hret hs'
      rw [hret, hs'] at hread
      exact (h.read hread).1
  | seek d pos whence => exact h.seek hrun
  | «open» d j flags => exact h.open hrun

/-- `ByteFiles.Call`, as a step that is labelled with the call and what it returns. -/
def ByteFiles.Returns (s : ByteFiles ι δ) (call : FileOp ι δ × ℤ) (s' : ByteFiles ι δ) : Prop :=
  s.Call call.1 call.2 s'

theorem BlankFiles.run (h : BlankFiles s₀.image) {calls : List (FileOp ι δ × ℤ)}
    (hrun : Trace Files.Returns s₀ calls s) :
    BlankFiles s.image ∧ Trace ByteFiles.Returns s₀.view calls s.view := by
  induction hrun with
  | nil => exact ⟨h, .nil⟩
  | snoc _ hcall ih =>
    obtain ⟨hblank, htrace⟩ := ih
    obtain ⟨hblank', hstep⟩ := hblank.step hcall
    exact ⟨hblank', htrace.snoc hstep⟩

/-- **Files are byte arrays, also where calls fail.**  Along a run of calls that return, whatever they return, the
files and the descriptors do what `ByteFiles.Call` says; and a read fills the first `n` bytes of its buffer with
bytes of the file, and no others. -/
theorem calls_refine (h₀ : RegularFiles s₀.image)
    (hz : ∀ j y, (s₀.image.inode j).din.size ≤ y → y / 4096 < 1036 →
      byteAt s₀.image.fs (s₀.image.inode j).din y = 0)
    {calls : List (FileOp ι δ × ℤ)} (hrun : Trace Files.Returns s₀ calls s) :
    Trace ByteFiles.Returns s₀.view calls s.view ∧
      ∀ d base len ret n buf s', fileRead s d base len = .ok (ret, n, buf, s') →
        n = 0 ∧ buf = base ∨ ∃ file, s.fd d = some file ∧ ∀ i, buf i =
          if i < n then (s.view.bytes file.node).getD (file.pos.toNat + i) 0 else base i := by
  have hclean : CleanFiles s₀.image := ⟨h₀, hz⟩
  obtain ⟨hblank, htrace⟩ := hclean.blankFiles.run hrun
  exact ⟨htrace, fun d base len ret n buf s' hread => (hblank.read hread).2⟩

/-- A write of five blocks finds four. -/
theorem calls_refine_tiny : ∃ s, (oneDescriptor tinyFs).Returns (.write false (fun _ => 1) 20480, -E_NO_MEM) s ∧
    Trace ByteFiles.Returns (oneDescriptor tinyFs).view [(.write false (fun _ => 1) 20480, -E_NO_MEM)] s.view := by
  have hcheck : (FileOp.run (oneDescriptor tinyFs) (.write false (fun _ => 1) 20480)).toOption.any
      (fun r => decide (r.1 = -E_NO_MEM)) = true := by
    decide +kernel
  cases hrun : FileOp.run (oneDescriptor tinyFs) (.write false (fun _ => 1) 20480) with
  | error p =>
    rw [hrun] at hcheck
    cases hcheck
  | ok r =>
    obtain ⟨ret, s⟩ := r
    rw [hrun] at hcheck
    have hret : ret = -E_NO_MEM := of_decide_eq_true hcheck
    have hop : (oneDescriptor tinyFs).Returns (.write false (fun _ => 1) 20480, -E_NO_MEM) s := by
      rw [Files.Returns, hrun, hret]
    exact ⟨s, hop, (calls_refine (regularFiles_oneDescriptor fsOk_tinyFs) (fun _ _ _ _ => if_pos (ite_self _))
      (.snoc .nil hop)).1⟩

end

end Ucore.Sfs
