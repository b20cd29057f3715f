import Ucore.Sysfile.Model

/-!
# `sysfile_read` (`lab8/kern/fs/sysfile.c`)

Each round of the loop reads up to 4096 bytes into the kernel buffer and copies them to the user.  `Reading` is
what holds between the rounds and, with `ReadStop`, at the end (`readLoop_spec`).  The pages of the ranges that
`user_mem_check` accepts are taken as mapped.

**`sysfileRead_exact`**: the bytes that are delivered are the bytes of the file, and they are counted.  But the
position of the descriptor also moves over a chunk that the user may not be given: the next read does not return
these bytes.
-/

namespace Ucore.Sysfile

open Memory Sfs Transition
open Vmm (MmStruct Uintptr userMemCheck userMemCheck_keeps userMemCheck_congr)

variable {ι δ : Type}

/-! ### Memory -/

variable {mem : Vmm.Memory} {dst : Uintptr} {f g : Mem} {m n : ℕ}

theorem store_zero : store mem dst f 0 = mem := funext fun _ => if_neg (Nat.not_lt_zero _)

theorem store_congr (h : ∀ i < n, f i = g i) : store mem dst f n = store mem dst g n := by
  funext a
  rw [store, store]
  by_cases ha : (a - dst).toNat < n
  · rw [if_pos ha, if_pos ha, h _ ha]
  · rw [if_neg ha, if_neg ha]

/-- Two copies, one behind the other. -/
theorem store_store (hle : m + n ≤ 2 ^ 64) :
    store (store mem dst f m) (dst + BitVec.ofNat 64 m) (fun i => f (m + i)) n = store mem dst f (m + n) := by
  funext a
  have ha : (a - dst).toNat < 2 ^ 64 := (a - dst).isLt
  have hsub : a - (dst + BitVec.ofNat 64 m) = a - dst - BitVec.ofNat 64 m := by
    rw [BitVec.sub_eq_add_neg, BitVec.neg_add, BitVec.sub_eq_add_neg, BitVec.sub_eq_add_neg, BitVec.sub_eq_add_neg,
      BitVec.add_assoc]
  rw [store, hsub, store, store, BitVec.toNat_sub, BitVec.toNat_ofNat]
  by_cases hlow : (a - dst).toNat < m
  · rw [if_neg (by omega), if_pos hlow, if_pos (by omega)]
  · by_cases hzero : n = 0
    · rw [if_neg (by omega), if_neg hlow, if_neg (by omega)]
    · have hmod : (2 ^ 64 - m % 2 ^ 64 + (a - dst).toNat) % 2 ^ 64 = (a - dst).toNat - m := by omega
      rw [hmod, if_neg hlow]
      by_cases hin : (a - dst).toNat < m + n
      · rw [if_pos (by omega), if_pos hin]
        congr 1
        omega
      · rw [if_neg (by omega), if_neg hin]

/-- The address space has its areas; the cache may differ. -/
def SameMm (mm mm' : Option MmStruct) : Prop := Vmm.Kept mm' ∧ mm'.map MmStruct.mmapList = mm.map MmStruct.mmapList

theorem SameMm.check {mm mm' mm₁ : Option MmStruct} {addr len : Uintptr} {write ok : Bool} (hk : Vmm.Kept mm)
    (h : SameMm mm mm') (hcheck : userMemCheck mm' addr len write = (ok, mm₁)) :
    SameMm mm mm₁ ∧ (userMemCheck mm addr len write).1 = ok := by
  obtain ⟨hk', hsame⟩ := userMemCheck_keeps h.1 hcheck
  refine ⟨⟨hk', hsame.trans h.2⟩, ?_⟩
  rw [← userMemCheck_congr hk h.1 h.2, hcheck]

/-! ### The loop -/

theorem length_view_lt {s : Files ι δ} (h : BlankFiles s.image) (j : ι) :
    ((s.view.bytes j).length : ℤ) < SFS_MAX_FILE_SIZE := by
  have hmax : SFS_MAX_FILE_SIZE = (maxFileSize : ℤ) := rfl
  have hlen : (s.view.bytes j).length = (s.image.inode j).din.size := length_contents _ _
  have hsize := (h.ok.bounded j).size
  have hfit := maxBlocks_lt_maxFileSize
  omega

/-- The bytes from the position to the end of the file, of the first `len`. -/
def available (s : Sys ι δ) (file : File ι) (len : ℕ) : ℕ :=
  min len ((s.files.view.bytes file.node).length - file.pos.toNat)

theorem available_lt {s : Sys ι δ} (h : BlankFiles s.files.image) (file : File ι) (len : ℕ) :
    available s file len < 2 ^ 31 := by
  have hlt := length_view_lt h file.node
  have hmax : SFS_MAX_FILE_SIZE = 134217728 := rfl
  rw [available]
  omega

/-- The bytes of the file, from the position on. -/
def fromPos (s : Sys ι δ) (file : File ι) : Mem := fun i => (s.files.view.bytes file.node).getD (file.pos.toNat + i) 0

/-- Why the loop ends: all bytes have been delivered, there is no block for the rest, or `user_mem_check` refuses the
next chunk. -/
inductive ReadStop (s : Sys ι δ) (file : File ι) (base : Uintptr) (len : ℕ) : ℤ → ℕ → ℕ → Prop
  | all {ret : ℤ} {k : ℕ} (hret : ret = 0 ∨ ret = -E_INVAL ∧ SFS_MAX_FILE_SIZE ≤ file.pos)
      (hn : k = available s file len) : ReadStop s file base len ret k 0
  | full {k : ℕ} (hn : k < available s file len)
      (hblocks : s.files.blocks file.node * SFS_BLKSIZE < file.pos.toNat + available s file len) :
      ReadStop s file base len (-E_NO_MEM) k 0
  | fault {ret : ℤ} {k lost : ℕ} (hret : ret < 0) (hpos : 0 < lost) (hle : lost ≤ IOBUF_SIZE)
      (hcheck : (userMemCheck s.mm (base + BitVec.ofNat 64 k) (BitVec.ofNat 64 lost) true).1 = false) :
      ReadStop s file base len ret k lost

section

variable [DecidableEq ι] [DecidableEq δ] {s₀ s s' : Sys ι δ} {d : δ} {file : File ι} {base : Uintptr}
variable {len lost : ℕ} {ret : ℤ}

/-- The first `n` bytes have been delivered, into ranges that `user_mem_check` accepts, and the position has moved
over `lost` bytes more. -/
structure Reading (s₀ : Sys ι δ) (d : δ) (file : File ι) (base : Uintptr) (len n lost : ℕ) (s : Sys ι δ) : Prop where
  blank : BlankFiles s.files.image
  view : s.files.view = ⟨s₀.files.view.bytes,
    Function.update s₀.files.fd d (some { file with pos := file.pos + (n + lost : ℕ) })⟩
  mem : s.mem = store s₀.mem base (fromPos s₀ file) n
  mm : SameMm s₀.mm s.mm
  le : n + lost ≤ available s₀ file len
  blocks : s₀.files.blocks file.node ≤ s.files.blocks file.node
  checked : ∀ i < n, ∃ o l, o ≤ i ∧ i < o + l ∧ o + l ≤ n ∧
    (userMemCheck s₀.mm (base + BitVec.ofNat 64 o) (BitVec.ofNat 64 l) true).1 = true

omit [DecidableEq ι] in
theorem Reading.refl (hblank : BlankFiles s.files.image) (hk : Vmm.Kept s.mm) (hfd : s.files.fd d = some file) :
    Reading s d file base len 0 0 s := by
  have hsame : Function.update s.files.fd d (some { file with pos := file.pos + (0 + 0 : ℕ) }) = s.files.fd := by
    have hfile : { file with pos := file.pos + (0 + 0 : ℕ) } = file := by
      cases file
      simp
    rw [hfile, ← hfd]
    exact Function.update_eq_self _ _
  refine ⟨hblank, ?_, store_zero.symm, ⟨hk, rfl⟩, Nat.zero_le _, le_rfl, fun i hi => absurd hi (Nat.not_lt_zero i)⟩
  rw [hsame]
  rfl

/-- One round reads a chunk into the buffer. -/
theorem Reading.chunk (h : Reading s₀ d file base len n 0 s) (hr : file.readable = true) (hpos : 0 ≤ file.pos)
    (hlt : n < len) (buffer : Mem) :
    ∃ ret alen buf files, fileRead s.files d buffer (UInt64.ofNat (min IOBUF_SIZE (len - n))) =
        .ok (ret, alen, buf, files) ∧ BlankFiles files.image ∧
      files.view = ⟨s₀.files.view.bytes,
        Function.update s₀.files.fd d (some { file with pos := file.pos + (n + alen : ℕ) })⟩ ∧
      (∀ i < alen, buf i = fromPos s₀ file (n + i)) ∧ n + alen ≤ available s₀ file len ∧ alen ≤ IOBUF_SIZE ∧
      s₀.files.blocks file.node ≤ files.blocks file.node ∧
      (alen = 0 ∧ n = available s₀ file len ∧ (ret = 0 ∨ ret = -E_INVAL ∧ SFS_MAX_FILE_SIZE ≤ file.pos) ∨
        (ret = -E_NO_MEM ∧ n + alen < available s₀ file len ∧
          s₀.files.blocks file.node * SFS_BLKSIZE < file.pos.toNat + available s₀ file len) ∨
        ret = 0 ∧ 0 < alen) := by
  have hview := h.view
  have hle := h.le
  rw [available] at hle ⊢
  have hfd : s.files.fd d = some { file with pos := file.pos + (n + 0 : ℕ) } := by
    have heq := congrArg (fun v => ByteFiles.fd v d) hview
    exact heq.trans (Function.update_self _ _ _)
  have hbytes : s.files.view.bytes = s₀.files.view.bytes := by rw [hview]
  have hbuffer : IOBUF_SIZE = 4096 := rfl
  have hsmall : (UInt64.ofNat (min IOBUF_SIZE (len - n))).toNat = min IOBUF_SIZE (len - n) := by
    rw [UInt64.toNat_ofNat', IOBUF_SIZE]
    omega
  have hfile := length_view_lt h.blank file.node
  obtain ⟨ret, alen, buf, files, hrun, hblank, hstop, hview', hfill, hmono, hfull⟩ :=
    h.blank.read_opened buffer (UInt64.ofNat (min IOBUF_SIZE (len - n))) hfd hr
  have htoNat : (file.pos + (n + 0 : ℕ)).toNat = file.pos.toNat + n := by omega
  dsimp only at hstop hview' hfill hmono hfull
  rw [hbytes] at hstop hview' hfile hfull
  rw [hbytes, htoNat] at hfill
  rw [hsmall, htoNat] at hstop hfull
  have hchunk : 0 < min IOBUF_SIZE (len - n) := by
    rw [IOBUF_SIZE]
    omega
  refine ⟨ret, alen, buf, files, hrun, hblank, ?_, fun i hi => ?_, ?_⟩
  · rw [hview']
    have hfds : s.files.fd = Function.update s₀.files.fd d (some { file with pos := file.pos + (n + 0 : ℕ) }) :=
      congrArg ByteFiles.fd hview
    rw [hfds, Function.update_idem]
    congr 3
    push_cast
    congr 1
    omega
  · rw [hfill i, if_pos hi, fromPos, Nat.add_assoc]
  · have hrefused : ¬ Accepted (file.pos + (n + 0 : ℕ)) (min IOBUF_SIZE (len - n)) →
        SFS_MAX_FILE_SIZE ≤ file.pos + n := by
      intro hacc
      by_contra hlow
      have hmax : SFS_MAX_FILE_SIZE = (maxFileSize : ℤ) := rfl
      have hconst : maxFileSize = 134217728 := rfl
      exact hacc ⟨by omega, by omega, by omega⟩
    cases hstop with
    | done =>
      refine ⟨by omega, by omega, h.blocks.trans hmono, ?_⟩
      by_cases hzero : min (min IOBUF_SIZE (len - n))
          ((s₀.files.view.bytes file.node).length - (file.pos.toNat + n)) = 0
      · exact .inl ⟨hzero, by omega, .inl rfl⟩
      · exact .inr (.inr ⟨rfl, by omega⟩)
    | refused hacc =>
      have hge := hrefused hacc
      exact ⟨by omega, Nat.zero_le _, h.blocks.trans hmono, .inl ⟨rfl, by omega, .inr ⟨rfl, by omega⟩⟩⟩
    | full hacc hd =>
      have hlt := hfull rfl
      have hge := h.blocks
      refine ⟨by omega, by omega, hge.trans hmono, .inr (.inl ⟨rfl, by omega, ?_⟩)⟩
      rw [blocksTo, if_neg (by omega)] at hlt
      rw [SFS_BLKSIZE] at *
      omega

/-- **The loop always ends**, with the first bytes delivered. -/
theorem readLoop_spec (hk : Vmm.Kept s₀.mm) (hr : file.readable = true) (hpos : 0 ≤ file.pos) (hlen : len < 2 ^ 64)
    (h : Reading s₀ d file base len n 0 s) (buffer : Mem) :
    ∃ ret m lost s', readLoop s d buffer (base + BitVec.ofNat 64 n) (len - n) n = .ok (ret, m, s') ∧
      Reading s₀ d file base len m lost s' ∧ ReadStop s₀ file base len ret m lost := by
  -- on the number of bytes that are asked for
  induction hleft : len - n using Nat.strong_induction_on generalizing n s buffer with
  | _ left ih =>
    have hle := h.le
    have havail : available s₀ file len ≤ len := Nat.min_le_left _ _
    rw [readLoop]
    by_cases hzero : left = 0
    · rw [if_pos hzero]
      exact ⟨0, n, 0, s, rfl, h, .all (.inl rfl) (by omega)⟩
    · rw [if_neg hzero]
      obtain ⟨ret, alen, buf, files, hrun, hblank, hview, hbuf, hfits, hsmall, hblocks, hcases⟩ :=
        h.chunk hr hpos (by omega) buffer
      rw [hleft] at hrun
      rw [hrun]
      dsimp only
      by_cases halen : alen = 0
      · subst halen
        rw [if_pos rfl]
        refine ⟨ret, n, 0, _, rfl, ⟨hblank, hview, h.mem, h.mm, hle, hblocks, h.checked⟩, ?_⟩
        rcases hcases with ⟨-, hn, hret⟩ | ⟨rfl, hn, hfull⟩ | ⟨-, hlt⟩
        · exact .all hret hn
        · exact .full hn hfull
        · exact absurd hlt (Nat.lt_irrefl _)
      · rw [if_neg halen]
        rw [copyToUser]
        cases hcheck : userMemCheck s.mm (base + BitVec.ofNat 64 n) (BitVec.ofNat 64 alen) true with
        | mk ok mm =>
          obtain ⟨hmm, hok⟩ := h.mm.check hk hcheck
          cases ok with
          | false =>
            refine ⟨_, n, alen, _, rfl, ⟨hblank, hview, h.mem, hmm, hfits, hblocks, h.checked⟩, ?_⟩
            refine .fault ?_ (Nat.pos_of_ne_zero halen) hsmall hok
            rcases hcases with ⟨hnone, -⟩ | ⟨rfl, -⟩ | ⟨rfl, -⟩
            · exact absurd hnone halen
            · decide
            · decide
          | true =>
            dsimp only
            have hmem : store s.mem (base + BitVec.ofNat 64 n) buf alen =
                store s₀.mem base (fromPos s₀ file) (n + alen) := by
              rw [h.mem, store_congr hbuf, store_store (by omega)]
            have hnew : ∀ i < n + alen, ∃ o l, o ≤ i ∧ i < o + l ∧ o + l ≤ n + alen ∧
                (userMemCheck s₀.mm (base + BitVec.ofNat 64 o) (BitVec.ofNat 64 l) true).1 = true := by
              intro i hi
              by_cases hlow : i < n
              · obtain ⟨o, l, ho, hl, hfit, hpass⟩ := h.checked i hlow
                exact ⟨o, l, ho, hl, by omega, hpass⟩
              · exact ⟨n, alen, by omega, hi, le_rfl, hok⟩
            rw [if_neg (by omega)]
            by_cases hret : ret = 0
            · rw [if_neg (not_not.mpr hret)]
              have hnext : Reading s₀ d file base len (n + alen) 0
                  ⟨files, mm, store s.mem (base + BitVec.ofNat 64 n) buf alen⟩ :=
                ⟨hblank, hview, hmem, hmm, hfits, hblocks, hnew⟩
              obtain ⟨ret', m, lost, s', hrest, hdone⟩ := ih (left - alen) (by omega) hnext buf (by omega)
              rw [Vmm.add_ofNat, hrest]
              exact ⟨ret', m, lost, s', rfl, hdone⟩
            · rw [if_pos hret]
              refine ⟨ret, n + alen, 0, _, rfl, ⟨hblank, hview, hmem, hmm, hfits, hblocks, hnew⟩, ?_⟩
              rcases hcases with ⟨hnone, -⟩ | ⟨rfl, hn, hfull⟩ | ⟨hzero, -⟩
              · exact absurd hnone halen
              · exact .full hn hfull
              · exact absurd hzero hret

/-! ### The call -/

/-- A count of bytes of a file fits into the `int` that is returned. -/
theorem returned_eq (hn : n < 2 ^ 31) : returned ret n = if n ≠ 0 then (n : ℤ) else ret := by
  rw [returned]
  by_cases hzero : n ≠ 0
  · rw [if_pos hzero, if_pos hzero]
    exact Int.bmod_eq_of_le (by omega) (by omega)
  · rw [if_neg hzero, if_neg hzero]

theorem sysfileRead_spec (hblank : BlankFiles s.files.image) (hk : Vmm.Kept s.mm) (hfd : s.files.fd d = some file)
    (hr : file.readable = true) (hpos : 0 ≤ file.pos) (buffer : Mem) (base : Uintptr) {len : UInt64}
    (hlen : len ≠ 0) : ∃ (ret : ℤ) (n lost : ℕ) (s' : Sys ι δ),
      sysfileRead s (some buffer) d base len = .ok (if n ≠ 0 then (n : ℤ) else ret, s') ∧
        Reading s d file base len.toNat n lost s' ∧ ReadStop s file base len.toNat ret n lost := by
  have hstart : Reading s d file base len.toNat 0 0 s := .refl hblank hk hfd
  obtain ⟨ret, n, lost, s', hloop, hreading, hstop⟩ := readLoop_spec hk hr hpos len.toNat_lt hstart buffer
  have hsmall : n < 2 ^ 31 := by
    have hlt := available_lt hblank file len.toNat
    have hle := hreading.le
    omega
  have htest : fileTestfd s.files d true false = true := by
    rw [fileTestfd, hfd]
    dsimp only
    rw [hr]
    rfl
  have hbase : base + BitVec.ofNat 64 0 = base := BitVec.add_zero _
  rw [hbase, Nat.sub_zero] at hloop
  refine ⟨ret, n, lost, s', ?_, hreading, hstop⟩
  rw [sysfileRead, if_neg hlen, htest, if_neg (by decide)]
  dsimp only
  rw [hloop, ← returned_eq hsmall]
  rfl

/-! ### Runs -/

/-- No descriptor stands before the start of its file. -/
def Positions (s : ByteFiles ι δ) : Prop := ∀ d file, s.fd d = some file → 0 ≤ file.pos

omit [DecidableEq ι] in
theorem Positions.update {b : ByteFiles ι δ} (h : Positions b) (hpos : 0 ≤ file.pos) (bytes : ι → List UInt8) :
    Positions ⟨bytes, Function.update b.fd d (some file)⟩ := by
  intro e g hg
  dsimp only at hg
  by_cases hed : e = d
  · subst hed
    rw [Function.update_self] at hg
    cases hg
    exact hpos
  · rw [Function.update_of_ne hed] at hg
    exact h e g hg

theorem Positions.call {b b' : ByteFiles ι δ} {op : FileOp ι δ} (h : Positions b) (hcall : b.Call op ret b') :
    Positions b' := by
  cases hcall with
  | refused => exact h
  | write hfd =>
    have hpos := h _ _ hfd
    exact h.update (Int.add_nonneg hpos (Int.natCast_nonneg _)) _
  | read hfd =>
    have hpos := h _ _ hfd
    exact h.update (Int.add_nonneg hpos (Int.natCast_nonneg _)) _
  | seek hfd htarget h₀ => exact h.update h₀ _
  | @«open» d j flags canWrite bytes =>
    refine h.update ?_ _
    show 0 ≤ if testFlag flags O_APPEND then ((bytes j).length : ℤ) else 0
    split
    · exact Int.natCast_nonneg _
    · exact le_rfl

theorem Positions.run {b₀ b : ByteFiles ι δ} {calls : List (FileOp ι δ × ℤ)} (h : Positions b₀)
    (hrun : Trace ByteFiles.Returns b₀ calls b) : Positions b := by
  induction hrun with
  | nil => exact h
  | snoc _ hcall ih => exact ih.call hcall

/-- Files that a run of calls may leave behind. -/
def Reachable (files : Files ι δ) : Prop :=
  ∃ files₀ calls, RegularFiles files₀.image ∧ (∀ j y, (files₀.image.inode j).din.size ≤ y → y / 4096 < 1036 →
    byteAt files₀.image.fs (files₀.image.inode j).din y = 0) ∧ Positions files₀.view ∧
      Trace Files.Returns files₀ calls files

theorem Reachable.blankFiles {files : Files ι δ} (h : Reachable files) :
    BlankFiles files.image ∧ Positions files.view := by
  obtain ⟨files₀, calls, hregular, htail, hpos, hrun⟩ := h
  have hclean : CleanFiles files₀.image := ⟨hregular, htail⟩
  obtain ⟨hblank, htrace⟩ := hclean.blankFiles.run hrun
  exact ⟨hblank, hpos.run htrace⟩

/-- One more call. -/
theorem Reachable.returns {files files' : Files ι δ} {call : FileOp ι δ × ℤ} (h : Reachable files)
    (hcall : files.Returns call files') : Reachable files' := by
  obtain ⟨files₀, calls, hregular, htail, hpos, hrun⟩ := h
  exact ⟨files₀, _, hregular, htail, hpos, hrun.snoc hcall⟩

theorem reachable_oneDescriptor : Reachable (oneDescriptor tinyFs) := by
  refine ⟨_, [], regularFiles_oneDescriptor fsOk_tinyFs, fun _ _ _ _ => if_pos (ite_self _), ?_, .nil⟩
  intro d file hfile
  cases d with
  | true => cases hfile
  | false =>
    cases hfile
    exact le_rfl

theorem kept_none : Vmm.Kept (none : Option MmStruct) := fun m hm => by cases hm

/-- **`sysfile_read`**, with files that any run has left: it returns the number `n` of bytes that it has delivered,
or why there is none.  They are the bytes of the file; the position has moved over them, and over the `lost` bytes
of a chunk that the user may not be given. -/
theorem sysfileRead_exact (h : Reachable s.files) (hk : Vmm.Kept s.mm) (hfd : s.files.fd d = some file)
    (hr : file.readable = true) (buffer : Mem) (base : Uintptr) {len : UInt64} (hlen : len ≠ 0) :
    ∃ (ret : ℤ) (n lost : ℕ) (s' : Sys ι δ),
      sysfileRead s (some buffer) d base len = .ok (if n ≠ 0 then (n : ℤ) else ret, s') ∧
        Reading s d file base len.toNat n lost s' ∧ ReadStop s file base len.toNat ret n lost := by
  obtain ⟨hblank, hpos⟩ := h.blankFiles
  exact sysfileRead_spec hblank hk hfd hr (hpos d file hfd) buffer base hlen

/-- One page that the user may read and write. -/
def onePage : MmStruct := ⟨[⟨0x200000, 0x201000, Vmm.VM_READ ||| Vmm.VM_WRITE⟩], none, 1⟩

theorem kept_onePage : Vmm.Kept (some onePage) := by
  rintro m hm
  cases hm
  exact ⟨⟨by decide, List.pairwise_singleton _ _⟩, fun v hv => nomatch hv⟩

/-- Two blocks are written to the empty file, and read from its start into one page: the files before the read, what
it returns, and the state after it. -/
def readBack : Option (Files Unit Bool × ℤ × Sys Unit Bool) := do
  let (ret, files) ← (FileOp.run (oneDescriptor tinyFs) (.write false (fun _ => 1) 8192)).toOption
  let (ret', files) ← (FileOp.run files (.seek false 0 0)).toOption
  let (result, s) ← (sysfileRead ⟨files, some onePage, fun _ => 0⟩ (some fun _ => 0) false 0x200000 8192).toOption
  if ret = 0 ∧ ret' = 0 then some (files, result, s) else none

/-- The second block has no page: the call returns 4096, and the descriptor has moved over both. -/
theorem sysfileRead_exact_refused : ∃ (s s' : Sys Unit Bool) (file : File Unit) (ret : ℤ) (n lost : ℕ),
    sysfileRead s (some fun _ => 0) false 0x200000 8192 = .ok (4096, s') ∧ n = 4096 ∧ lost = 4096 ∧
      Reading s false file 0x200000 8192 n lost s' ∧ ReadStop s file 0x200000 8192 ret n lost := by
  have hcheck : readBack.any (fun r => decide (r.2.1 = 4096 ∧
      (r.1.fd false).map (fun f => (f.pos, f.readable)) = some (0, true) ∧
      (r.2.2.files.fd false).map (fun f => f.pos) = some 8192)) = true := by
    decide +kernel
  obtain ⟨⟨files, result, s'⟩, hback, hr⟩ := (Option.any_eq_true _ _).mp hcheck
  obtain ⟨hresult, hfd, hmoved⟩ := of_decide_eq_true hr
  dsimp only at hresult hfd hmoved
  rw [readBack] at hback
  obtain ⟨⟨ret₁, files₁⟩, hwrite, hback₁⟩ := Option.bind_eq_some_iff.mp hback
  dsimp only at hback₁
  obtain ⟨⟨ret₂, files₂⟩, hseek, hback₂⟩ := Option.bind_eq_some_iff.mp hback₁
  dsimp only at hback₂
  obtain ⟨⟨result₂, s₂⟩, hread, hback₃⟩ := Option.bind_eq_some_iff.mp hback₂
  clear hback hback₁ hback₂
  dsimp only at hback₃
  by_cases hzero : ret₁ = 0 ∧ ret₂ = 0
  case neg =>
    rw [if_neg hzero] at hback₃
    cases hback₃
  rw [if_pos hzero] at hback₃
  cases hback₃
  obtain ⟨rfl, rfl⟩ := hzero
  obtain ⟨file, hfile, hf⟩ := Option.map_eq_some_iff.mp hfd
  obtain ⟨hpos, hreadable⟩ := Prod.mk.inj hf
  have hreturns₁ : (oneDescriptor tinyFs).Returns (.write false (fun _ => 1) 8192, 0) files₁ :=
    Fallible.eq_ok_of_toOption hwrite
  have hreturns₂ : files₁.Returns (.seek false 0 0, 0) files := Fallible.eq_ok_of_toOption hseek
  have hreachable := (reachable_oneDescriptor.returns hreturns₁).returns hreturns₂
  obtain ⟨ret, n, lost, s, hrun, hreading, hstop⟩ := sysfileRead_exact
    (s := ⟨files, some onePage, fun _ => 0⟩) (d := false) hreachable kept_onePage hfile hreadable
    (fun _ => 0) 0x200000 (show (8192 : UInt64) ≠ 0 by decide)
  have hsame := (Fallible.eq_ok_of_toOption hread).symm.trans hrun
  obtain ⟨hn, hs⟩ := Prod.mk.inj (Except.ok.inj hsame)
  subst hs
  rw [hresult] at hn
  have hret : ret ≤ 0 := by
    cases hstop with
    | all hret hk =>
      rcases hret with rfl | ⟨rfl, -⟩
      · exact le_rfl
      · decide
    | full => decide
    | fault hret => exact le_of_lt hret
  have hcount : n = 4096 := by
    split at hn
    · omega
    · omega
  have hlost : lost = 4096 := by
    have hview := congrArg (fun v => (v.fd false).map fun f => f.pos) hreading.view
    dsimp only [Files.view] at hview
    rw [Function.update_self, hmoved, Option.map_some, hpos] at hview
    have heq : 8192 = 0 + ((n + lost : ℕ) : ℤ) := Option.some.inj hview
    omega
  refine ⟨_, _, file, ret, n, lost, ?_, hcount, hlost, hreading, hstop⟩
  rw [Fallible.eq_ok_of_toOption hread, hresult]

end

end Ucore.Sysfile
