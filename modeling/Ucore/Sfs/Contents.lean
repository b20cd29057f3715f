import Mathlib.Data.UInt
import Ucore.Lib.Bytes
import Ucore.Sfs.Metadata

/-!
# Files as byte arrays, over runs

`ByteFiles` is what the files are for: a sequence of bytes for each file, and the descriptors.  A write
overlays its bytes, a seek behind the end pads with zeros, a truncation empties the file.

**`contents_refine`**: along every run of successful calls the files have the bytes of the abstract
run, and a read returns these bytes.  No block is ever read that has not been cleared or written for
its file: the bytes behind the end of a file are zeros in every state (`ZeroTail`), because blocks are
cleared when they are allocated and a cut file has lost its blocks.
-/

namespace Ucore.Sfs

open Memory Relation Bytes

variable {ι δ : Type} {fs fs' : Fs} {sin sin' : Inode} {ret : ℤ} {c : NodeCall} {n : ℕ}
variable {f : List UInt8}

/-! ### Byte arrays -/

/-- Files with byte arrays, and the descriptors. -/
structure ByteFiles (ι δ : Type) where
  bytes : ι → List UInt8
  fd : δ → Option (File ι)

section

variable [DecidableEq ι] [DecidableEq δ]

/-- What a successful call does. -/
def ByteFiles.apply (s : ByteFiles ι δ) : FileOp ι δ → ByteFiles ι δ
  | .write d base len =>
    match s.fd d with
    | none => s
    | some file =>
      let data := (List.range len.toNat).map base
      let bytes := if len.toNat = 0 then s.bytes else Function.update s.bytes file.node
        (writeAt (s.bytes file.node) file.pos.toNat data)
      ⟨bytes, Function.update s.fd d (some { file with pos := file.pos + len.toNat })⟩
  | .read d _ len =>
    match s.fd d with
    | none => s
    | some file =>
      let alen := min len.toNat ((s.bytes file.node).length - file.pos.toNat)
      ⟨s.bytes, Function.update s.fd d (some { file with pos := file.pos + alen })⟩
  | .seek d pos whence =>
    match s.fd d with
    | none => s
    | some file =>
      match seekTarget pos whence file.pos (s.bytes file.node).length with
      | none => s
      | some pos =>
        ⟨Function.update s.bytes file.node (padTo (s.bytes file.node) pos.toNat),
          Function.update s.fd d (some { file with pos := pos })⟩
  | .open d j flags =>
    let bytes := if testFlag flags O_TRUNC = true ∨ testFlag flags O_CREAT = true then
      Function.update s.bytes j [] else s.bytes
    let pos : ℤ := if testFlag flags O_APPEND then (bytes j).length else 0
    ⟨bytes, Function.update s.fd d
      (some ⟨j, pos, flags &&& O_ACCMODE != O_WRONLY, accessMode flags = some true⟩)⟩

end

/-- The bytes of a file. -/
def contents (fs : Fs) (din : DiskInode) : List UInt8 := (List.range din.size).map (byteAt fs din)

/-- The bytes of the files, and the descriptors. -/
def Files.view (s : Files ι δ) : ByteFiles ι δ :=
  ⟨fun j => contents s.image.fs (s.image.inode j).din, s.fd⟩

theorem length_contents (fs : Fs) (din : DiskInode) : (contents fs din).length = din.size := by
  rw [contents, List.length_map, List.length_range]

theorem getD_range_map {g : ℕ → UInt8} {i : ℕ} (hi : i < n) :
    ((List.range n).map g).getD i 0 = g i := by
  rw [List.getD_eq_getElem _ _ (by rw [List.length_map, List.length_range]; exact hi),
    List.getElem_map, List.getElem_range]

/-! ### One file -/

/-- The bytes behind the end of a file are zeros. -/
def ZeroTail (fs : Fs) (din : DiskInode) : Prop :=
  ∀ y, din.size ≤ y → y / SFS_BLKSIZE < maxBlocks → byteAt fs din y = 0

/-- The file has become the byte array `f`. -/
structure Becomes (fs : Fs) (sin : Inode) (fs' : Fs) (sin' : Inode) (f : List UInt8) : Prop where
  priv : Private fs sin.din fs' sin'.din
  regular : RegularFile fs' sin'.din
  tail : ZeroTail fs' sin'.din
  bytes : contents fs' sin'.din = f

theorem Becomes.refl (h : RegularFile fs sin.din) (hz : ZeroTail fs sin.din) :
    Becomes fs sin fs sin (contents fs sin.din) :=
  ⟨Private.refl h.file.ok h.file.map, h, hz, rfl⟩

/-- All bytes of a file lie in blocks that an inode can map. -/
theorem RegularFile.in_range {din : DiskInode} (h : RegularFile fs din) {y : ℕ} (hy : y < din.size) :
    y / SFS_BLKSIZE < maxBlocks := by
  have hsize := h.bounded.size
  rw [Nat.div_lt_iff_lt_mul (by decide)]
  omega

theorem getD_contents {din : DiskInode} (hz : ZeroTail fs din) {y : ℕ}
    (hy : y / SFS_BLKSIZE < maxBlocks) : (contents fs din).getD y 0 = byteAt fs din y := by
  by_cases hlt : y < din.size
  · rw [contents, getD_range_map hlt]
  · have hge := Nat.not_lt.mp hlt
    rw [List.getD_eq_default _ _ (by rw [length_contents]; exact hge), hz y hge hy]

/-- Contents are determined by their length and by the bytes of the file. -/
theorem contents_eq {din : DiskInode} (hlen : f.length = din.size)
    (h : ∀ y < din.size, f.getD y 0 = byteAt fs din y) : contents fs din = f := by
  have hsize := length_contents fs din
  refine eq_of_getD (hsize.trans hlen.symm) ?_
  intro y hy
  rw [hsize] at hy
  rw [h y hy, contents, getD_range_map hy]

theorem becomes_write {buf : Mem} {offset d : ℕ} {io : Io}
    (ht : Transferred fs sin buf true offset d io) (hd : 0 < d) (h : RegularFile fs sin.din)
    (hz : ZeroTail fs sin.din) : Becomes fs sin io.fs io.sin
      (writeAt (contents fs sin.din) offset ((List.range d).map buf)) := by
  have hreg := ht.metadata h fun hzero => absurd hzero (Nat.ne_of_gt hd)
  have hsize := ht.size
  have hlen : ((List.range d).map buf).length = d := by rw [List.length_map, List.length_range]
  refine ⟨ht.priv, hreg, ?_, ?_⟩
  · intro y hy hr
    rw [ht.bytes y hr, overlay, if_neg (by omega)]
    exact hz y (by omega) hr
  · apply contents_eq
    · rw [length_writeAt, length_contents, hlen, hsize]
    · intro y hy
      have hr := hreg.in_range hy
      rw [ht.bytes y hr, overlay, getD_writeAt, hlen]
      by_cases hin : offset ≤ y ∧ y < offset + d
      · rw [if_pos hin, if_pos ⟨rfl, hin⟩, getD_range_map (by omega)]
      · rw [if_neg hin, if_neg fun hc => hin hc.2, getD_contents hz hr]

theorem becomes_read {buf : Mem} {offset d : ℕ} {io : Io}
    (ht : Transferred fs sin buf false offset d io) (hd : 0 < d) (hle : offset + d ≤ sin.din.size)
    (h : RegularFile fs sin.din) (hz : ZeroTail fs sin.din) :
    Becomes fs sin io.fs io.sin (contents fs sin.din) := by
  have hreg := ht.metadata h fun hzero => absurd hzero (Nat.ne_of_gt hd)
  have hsize : io.sin.din.size = sin.din.size := by
    have := ht.size
    omega
  have hbytes : ∀ y, y / SFS_BLKSIZE < maxBlocks → byteAt io.fs io.sin.din y = byteAt fs sin.din y := by
    intro y hr
    rw [ht.bytes y hr, overlay, if_neg fun hc => Bool.false_ne_true hc.1]
  refine ⟨ht.priv, hreg, ?_, ?_⟩
  · intro y hy hr
    rw [hbytes y hr]
    exact hz y (by omega) hr
  · apply contents_eq
    · rw [length_contents, hsize]
    · intro y hy
      rw [hbytes y (hreg.in_range hy), getD_contents hz (hreg.in_range hy)]

theorem becomes_resized (hr : Resized fs sin n fs' sin') (h : RegularFile fs sin.din)
    (hz : ZeroTail fs sin.din) (hn : n = 0 ∨ sin.din.size ≤ n) :
    Becomes fs sin fs' sin' (if n = 0 then [] else padTo (contents fs sin.din) n) := by
  have hnb := h.nblocks
  have hreg : RegularFile fs' sin'.din := by
    refine ⟨hr.type.trans h.type, hr.file, ?_⟩
    rw [hr.nblocks, hr.size]
    rfl
  refine ⟨hr.priv, hreg, ?_, ?_⟩
  · intro y hy hk
    rw [hr.size] at hy
    rw [hr.bytes y hk]
    by_cases hcut : blocksOf n ≤ y / SFS_BLKSIZE ∧ y / SFS_BLKSIZE < sin.din.blocks
    · exact if_pos hcut
    · refine (if_neg hcut).trans (hz y ?_ hk)
      rcases hn with rfl | hle
      · -- the blocks of the file are cut off
        have hzero : blocksOf 0 = 0 := by decide
        rw [hzero] at hcut
        rw [SFS_BLKSIZE] at *
        omega
      · exact hle.trans hy
  · apply contents_eq
    · by_cases hzero : n = 0
      · rw [if_pos hzero, hr.size, hzero]
        rfl
      · rw [if_neg hzero, length_padTo, length_contents, hr.size]
        omega
    · intro y hy
      have hk := hreg.in_range hy
      rw [hr.size] at hy
      have hcut : ¬ (blocksOf n ≤ y / SFS_BLKSIZE ∧ y / SFS_BLKSIZE < sin.din.blocks) := by
        have hlt := (Nat.div_lt_iff_lt_mul (show 0 < SFS_BLKSIZE by decide)).mpr (lt_blocksOf_mul hy)
        omega
      rw [if_neg (by omega), getD_padTo, getD_contents hz hk, hr.bytes y hk]
      exact (if_neg hcut).symm

/-- A write that returns 0. -/
theorem IoCall.becomes_write {buf : Mem} {pos : ℤ} {len : ℕ} {io : Io}
    (hcall : IoCall fs sin buf true pos len (.ok io)) (hret : io.ret = 0)
    (h : RegularFile fs sin.din) (hz : ZeroTail fs sin.din) :
    io.alen = len ∧ Becomes fs sin io.fs io.sin (if len = 0 then contents fs sin.din else
      writeAt (contents fs sin.din) pos.toNat ((List.range len).map buf)) := by
  rcases hcall.wrote hret with ⟨rfl, rfl⟩ | ⟨offset, rfl, hlen, -, -, ht⟩
  · rw [if_pos rfl]
    exact ⟨rfl, Becomes.refl h hz⟩
  · rw [if_neg (Nat.ne_of_gt hlen), Int.toNat_natCast]
    exact ⟨ht.alen, Sfs.becomes_write ht hlen h hz⟩

/-- A read that returns 0. -/
theorem IoCall.becomes_read {buf : Mem} {pos : ℤ} {len : ℕ} {io : Io}
    (hcall : IoCall fs sin buf false pos len (.ok io)) (hret : io.ret = 0)
    (h : RegularFile fs sin.din) (hz : ZeroTail fs sin.din) :
    io.alen = min len (sin.din.size - pos.toNat) ∧
      (∀ i < io.alen, io.buf i = (contents fs sin.din).getD (pos.toNat + i) 0) ∧
      Becomes fs sin io.fs io.sin (contents fs sin.din) := by
  cases hcall with
  | refused => exact absurd hret inval_ne_zero
  | nothing hacc hn =>
    refine ⟨?_, fun i hi => absurd hi (Nat.not_lt_zero i), Becomes.refl h hz⟩
    obtain ⟨h₀, -, -⟩ := hacc
    show 0 = _
    rcases hn with rfl | ⟨-, hge⟩
    · rw [Nat.zero_min]
    · omega
  | @moves offset _ hpos hoff hlen hsmall hread hout =>
    subst hpos
    rw [Int.toNat_natCast]
    have hlt := hread rfl
    have hsize := h.bounded.size
    have hmax := maxBlocks_lt_maxFileSize
    have htotal : ioLen false sin.din offset len = min len (sin.din.size - offset) := by
      rw [ioLen, if_neg Bool.false_ne_true]
      omega
    cases hout with
    | full hstart ht hret' =>
      rw [hret'] at hret
      exact absurd hret (by decide)
    | all hstart ht hret' hfit hcount =>
      rw [htotal] at ht
      refine ⟨ht.alen, ?_, Sfs.becomes_read ht (by omega) (by omega) h hz⟩
      intro i hi
      rw [ht.alen] at hi
      have hr : (offset + i) / SFS_BLKSIZE < maxBlocks := h.in_range (by omega)
      rw [ht.buf, filled, if_pos ⟨rfl, hi⟩, getD_contents hz hr]

/-- A seek that returns 0. -/
theorem becomes_tryseek {pos : ℤ} (hrun : sfsTryseek fs sin pos = .ok (0, fs', sin'))
    (h : RegularFile fs sin.din) (hz : ZeroTail fs sin.din) :
    Becomes fs sin fs' sin' (padTo (contents fs sin.din) pos.toNat) := by
  have hcall := sfsTryseek_call pos h.file
  rw [hrun] at hcall
  cases hcall with
  | inside h₀ hle =>
    have hsame : padTo (contents fs sin.din) pos.toNat = contents fs sin.din := by
      rw [padTo, length_contents, Nat.sub_eq_zero_of_le (by omega), List.replicate_zero,
        List.append_nil]
    rw [hsame]
    exact Becomes.refl h hz
  | grows hpos hn hgt ht =>
    subst hpos
    rw [Int.toNat_natCast]
    cases ht with
    | same hsize hblocks => omega
    | resized hsize hr hcount =>
      have hb := becomes_resized hr h hz (Or.inr (Nat.le_of_lt hgt))
      rw [if_neg (by omega)] at hb
      exact hb

/-- A truncation to 0 that returns 0. -/
theorem becomes_truncate (hrun : sfsTruncfile fs sin 0 = .ok (0, fs', sin'))
    (h : RegularFile fs sin.din) (hz : ZeroTail fs sin.din) : Becomes fs sin fs' sin' [] := by
  have ht := sfsTruncfile_spec h.file (Nat.zero_le maxFileSize)
  rw [Nat.cast_zero, hrun] at ht
  cases ht with
  | same hsize hblocks =>
    have hempty : contents fs sin.din = [] := by
      rw [contents, hsize]
      rfl
    rw [← hempty]
    exact Becomes.refl h hz
  | resized hsize hr hcount => exact becomes_resized hr h hz (Or.inl rfl)

/-! ### Runs -/

/-- Well-formed regular files that share no block, with zeros behind their ends. -/
structure CleanFiles (s : Image ι) : Prop where
  regular : RegularFiles s
  tail : ∀ j, ZeroTail s.fs (s.inode j).din

section

variable [DecidableEq ι]

/-- **One file has become a byte array**; the others are as they were. -/
theorem CleanFiles.set {s : Image ι} {j : ι} (h : CleanFiles s)
    (hb : Becomes s.fs (s.inode j) fs' sin' f) : CleanFiles (s.set j fs' sin') ∧
      (fun l => contents fs' ((s.set j fs' sin').inode l).din) =
        Function.update (fun l => contents s.fs (s.inode l).din) j f := by
  have hother : ∀ l, l ≠ j → Untouched s.fs fs' sin'.din (s.inode l).din := fun l hl =>
    h.regular.apart.untouched hb.priv hl (h.regular.file l).file
  refine ⟨⟨h.regular.set hb.priv hb.regular, ?_⟩, ?_⟩
  · intro l
    by_cases hl : l = j
    · rw [hl, s.set_inode_self]
      exact hb.tail
    · rw [s.set_inode_of_ne _ _ hl]
      intro y hy hr
      exact ((hother l hl).bytes y hr).trans (h.tail l y hy hr)
  · funext l
    by_cases hl : l = j
    · rw [hl, s.set_inode_self, Function.update_self]
      exact hb.bytes
    · rw [s.set_inode_of_ne _ _ hl, Function.update_of_ne hl]
      apply contents_eq
      · rw [length_contents]
      · intro y hy
        have hr := (h.regular.file l).in_range hy
        rw [getD_contents (h.tail l) hr]
        exact ((hother l hl).bytes y hr).symm

variable [DecidableEq δ] {s s' s₀ : Files ι δ} {op : FileOp ι δ}

/-- A call that returns 0. -/
def Files.Succeeds (s : Files ι δ) (op : FileOp ι δ) (s' : Files ι δ) : Prop :=
  op.run s = .ok (0, s')

theorem view_setFd {j : ι} {g : ι → List UInt8} (d : δ) (file : File ι)
    (hbytes : (fun l => contents fs ((s.image.set j fs sin).inode l).din) = g) :
    (Files.setFd { s with image := s.image.set j fs sin } d file).view =
      ⟨g, Function.update s.fd d (some file)⟩ := by
  rw [← hbytes]
  rfl

theorem contents_write (h : CleanFiles s.image) {d : δ} {base : Mem} {len : UInt64}
    (hrun : s.Succeeds (.write d base len) s') :
    CleanFiles s'.image ∧ s'.view = s.view.apply (.write d base len) := by
  rw [Files.Succeeds, FileOp.run, fileWrite] at hrun
  cases hfd : s.fd d with
  | none =>
    rw [hfd] at hrun
    cases hrun
  | some file =>
    have hview : s.view.fd d = some file := hfd
    rw [hfd] at hrun
    dsimp only at hrun
    by_cases hw : file.writable = false
    · rw [if_pos hw] at hrun
      cases hrun
    · have hreg := h.regular.file file.node
      have hcall := sfsIoNolock_call base true file.pos hreg.ne_dir
        hreg.file len.toNat_lt
      rw [if_neg hw] at hrun
      generalize sfsIoNolock s.image.fs (s.image.inode file.node) base file.pos len.toNat true = x
        at hcall hrun
      cases x with
      | error p => cases hrun
      | ok io =>
        injection hrun with hrun
        injection hrun with hret hs'
        obtain ⟨halen, hb⟩ := hcall.becomes_write hret hreg (h.tail _)
        obtain ⟨hclean, hbytes⟩ := h.set hb
        rw [← hs']
        refine ⟨hclean, ?_⟩
        rw [view_setFd _ _ hbytes, halen, ByteFiles.apply, hview]
        dsimp only
        congr 1
        by_cases hlen : len.toNat = 0
        · rw [if_pos hlen, if_pos hlen]
          exact Function.update_eq_self _ _
        · rw [if_neg hlen, if_neg hlen]
          rfl

theorem contents_read (h : CleanFiles s.image) {d : δ} {base : Mem} {len : UInt64} {n : ℕ}
    {buf : Mem} (hrun : fileRead s d base len = .ok (0, n, buf, s')) :
    (CleanFiles s'.image ∧ s'.view = s.view.apply (.read d base len)) ∧
      ∃ file, s.fd d = some file ∧
        ∀ i < n, buf i = (s.view.bytes file.node).getD (file.pos.toNat + i) 0 := by
  rw [fileRead] at hrun
  cases hfd : s.fd d with
  | none =>
    rw [hfd] at hrun
    cases hrun
  | some file =>
    have hview : s.view.fd d = some file := hfd
    rw [hfd] at hrun
    dsimp only at hrun
    by_cases hr : file.readable = false
    · rw [if_pos hr] at hrun
      cases hrun
    · have hreg := h.regular.file file.node
      have hcall := sfsIoNolock_call base false file.pos hreg.ne_dir
        hreg.file len.toNat_lt
      rw [if_neg hr] at hrun
      generalize sfsIoNolock s.image.fs (s.image.inode file.node) base file.pos len.toNat false = x
        at hcall hrun
      cases x with
      | error p => cases hrun
      | ok io =>
        injection hrun with hrun
        injection hrun with hret hrun
        injection hrun with hn hrun
        injection hrun with hbuf hs'
        obtain ⟨halen, hread, hb⟩ := hcall.becomes_read hret hreg (h.tail _)
        obtain ⟨hclean, hbytes⟩ := h.set hb
        rw [← hs', ← hn, ← hbuf]
        refine ⟨⟨hclean, ?_⟩, file, rfl, hread⟩
        rw [view_setFd _ _ hbytes, halen, ByteFiles.apply, hview]
        dsimp only [Files.view]
        rw [length_contents]
        congr 1
        exact Function.update_eq_self _ _

theorem contents_seek (h : CleanFiles s.image) {d : δ} {pos : ℤ} {whence : ℕ}
    (hrun : s.Succeeds (.seek d pos whence) s') :
    CleanFiles s'.image ∧ s'.view = s.view.apply (.seek d pos whence) := by
  rw [Files.Succeeds, FileOp.run, fileSeek] at hrun
  cases hfd : s.fd d with
  | none =>
    rw [hfd] at hrun
    cases hrun
  | some file =>
    have hview : s.view.fd d = some file := hfd
    rw [hfd] at hrun
    dsimp only at hrun
    cases htarget : seekTarget pos whence file.pos (s.image.inode file.node).din.size with
    | none =>
      rw [htarget] at hrun
      cases hrun
    | some p =>
      rw [htarget] at hrun
      dsimp only at hrun
      cases hseek : sfsTryseek s.image.fs (s.image.inode file.node) p with
      | error e =>
        rw [hseek] at hrun
        cases hrun
      | ok r =>
        obtain ⟨ret, fs, sin⟩ := r
        rw [hseek, ok_bind] at hrun
        dsimp only at hrun
        by_cases hret : ret = 0
        · rw [if_pos hret] at hrun
          injection hrun with hrun
          injection hrun with _ hs'
          rw [hret] at hseek
          have hb := becomes_tryseek hseek (h.regular.file _) (h.tail _)
          obtain ⟨hclean, hbytes⟩ := h.set hb
          rw [← hs']
          refine ⟨hclean, ?_⟩
          rw [view_setFd _ _ hbytes, ByteFiles.apply, hview]
          dsimp only [Files.view]
          rw [length_contents, htarget]
        · rw [if_neg hret] at hrun
          injection hrun with hrun
          injection hrun with hzero _
          exact absurd hzero hret

theorem contents_open (h : CleanFiles s.image) {d : δ} {j : ι} {flags : BitVec 32}
    (hrun : s.Succeeds (.open d j flags) s') :
    CleanFiles s'.image ∧ s'.view = s.view.apply (.open d j flags) := by
  rw [Files.Succeeds, FileOp.run_open] at hrun
  cases hmode : accessMode flags with
  | none =>
    rw [hmode] at hrun
    cases hrun
  | some canWrite =>
    rw [hmode] at hrun
    dsimp only at hrun
    by_cases hfd : (s.fd d).isSome = true
    · rw [if_pos hfd] at hrun
      cases hrun
    · rw [if_neg hfd] at hrun
      by_cases hcheck : vfsOpenCheck flags canWrite ≠ 0
      · rw [if_pos hcheck] at hrun
        injection hrun with hrun
        injection hrun with hzero _
        exact absurd hzero hcheck
      · rw [if_neg hcheck] at hrun
        have hwritable : decide (some canWrite = some true) = canWrite := by
          cases canWrite <;> rfl
        by_cases ht : testFlag flags O_TRUNC = true ∨ testFlag flags O_CREAT = true
        · rw [if_pos ht] at hrun
          cases htr : sfsTruncfile s.image.fs (s.image.inode j) 0 with
          | error e =>
            rw [htr] at hrun
            cases hrun
          | ok r =>
            obtain ⟨ret, fs, sin⟩ := r
            rw [htr, ok_bind] at hrun
            dsimp only at hrun
            by_cases hret : ret ≠ 0
            · rw [if_pos hret] at hrun
              injection hrun with hrun
              injection hrun with hzero _
              exact absurd hzero hret
            · rw [if_neg hret] at hrun
              injection hrun with hrun
              injection hrun with _ hs'
              rw [not_not.mp hret] at htr
              have hb := becomes_truncate htr (h.regular.file j) (h.tail j)
              have hlen := length_contents fs sin.din
              obtain ⟨hclean, hbytes⟩ := h.set hb
              rw [hb.bytes] at hlen
              rw [← hs']
              refine ⟨hclean, ?_⟩
              rw [view_setFd _ _ hbytes, ByteFiles.apply, hmode, hwritable]
              rw [if_pos ht, Function.update_self, hlen]
              rfl
        · rw [if_neg ht, ok_bind] at hrun
          dsimp only at hrun
          rw [if_neg (not_not.mpr rfl)] at hrun
          injection hrun with hrun
          injection hrun with _ hs'
          have hb := Becomes.refl (h.regular.file j) (h.tail j)
          obtain ⟨hclean, hbytes⟩ := h.set hb
          rw [← hs']
          refine ⟨hclean, ?_⟩
          rw [view_setFd _ _ hbytes, ByteFiles.apply, hmode, hwritable]
          dsimp only [Files.view]
          rw [if_neg ht, length_contents]
          congr 1
          exact Function.update_eq_self _ _

/-- **One successful call.** -/
theorem contents_step (h : CleanFiles s.image) (hrun : s.Succeeds op s') :
    CleanFiles s'.image ∧ s'.view = s.view.apply op := by
  cases op with
  | write d base len => exact contents_write h hrun
  | read d base len =>
    rw [Files.Succeeds, FileOp.run] at hrun
    cases hread : fileRead s d base len with
    | error p =>
      rw [hread] at hrun
      cases hrun
    | ok r =>
      obtain ⟨ret, n, buf, s₁⟩ := r
      rw [hread] at hrun
      injection hrun with hrun
      injection hrun with hret hs'
      rw [hret, hs'] at hread
      exact (contents_read h hread).1
  | seek d pos whence => exact contents_seek h hrun
  | «open» d j flags => exact contents_open h hrun

/-- **Files are byte arrays.**  Along a run of successful calls the files have the bytes of the
abstract run, and a read from a file returns these bytes. -/
theorem contents_refine (h₀ : RegularFiles s₀.image)
    (hz : ∀ j y, (s₀.image.inode j).din.size ≤ y → y / 4096 < 1036 →
      byteAt s₀.image.fs (s₀.image.inode j).din y = 0)
    {ops : List (FileOp ι δ)} (hrun : Transition.Trace Files.Succeeds s₀ ops s) :
    s.view = ops.foldl ByteFiles.apply s₀.view ∧
      ∀ d base len n buf s', fileRead s d base len = .ok (0, n, buf, s') →
        ∃ file, s.fd d = some file ∧
          ∀ i < n, buf i = (s.view.bytes file.node).getD (file.pos.toNat + i) 0 := by
  obtain ⟨hclean, hview⟩ := Transition.Trace.foldl
    (fun a op b (ha : CleanFiles a.image) hop => contents_step ha hop) hrun ⟨h₀, hz⟩
  exact ⟨hview, fun d base len n buf s' hread => (contents_read hclean hread).2⟩

/-- The empty file after a seek to its third block. -/
theorem contents_refine_tiny : ∃ s, (oneDescriptor tinyFs).Succeeds (.seek false 8192 0) s ∧
    s.view.bytes () = padTo [] 8192 := by
  have hrun : ∃ fs sin, sfsTruncfile tinyFs emptyFile 8192 = .ok (0, fs, sin) := ⟨_, _, rfl⟩
  obtain ⟨fs, sin, htr⟩ := hrun
  have hop : (oneDescriptor tinyFs).Succeeds (.seek false 8192 0) (Files.setFd
      { oneDescriptor tinyFs with image := (oneDescriptor tinyFs).image.set () fs sin } false
      ⟨(), 8192, true, true⟩) := by
    show (sfsTryseek tinyFs emptyFile 8192 >>= _) = _
    rw [sfsTryseek_tiny, htr]
    rfl
  have hview := (contents_refine (regularFiles_oneDescriptor fsOk_tinyFs)
    (fun _ _ _ _ => if_pos (ite_self _)) (.snoc .nil hop)).1
  refine ⟨_, hop, ?_⟩
  rw [hview]
  rfl

end

end Ucore.Sfs
