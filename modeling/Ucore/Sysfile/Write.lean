import Ucore.Sysfile.Read

/-!
# `sysfile_write` (`lab8/kern/fs/sysfile.c`)

Each round of the loop copies up to 4096 bytes from the user and writes them.  `Writing` is what holds between the
rounds and at the end (`writeLoop_spec`).  The pages of the ranges that `user_mem_check` accepts are taken as mapped.

**`sysfileWrite_exact`**: the bytes that are counted are the bytes of the user, and they are in the file; unlike a
read, a write that stops early loses nothing.  **`write_then_read`**: what has been written is read back.
-/

namespace Ucore.Sysfile

open Memory Sfs Bytes
open Vmm (MmStruct Uintptr userMemCheck userMemCheck_congr)

variable {ι δ : Type}

/-! ### Data in pieces -/

/-- Two writes, where the first one has returned 0. -/
theorem written_written {f data data' : List UInt8} {pos : ℕ} {ret : ℤ} :
    written (written f pos 0 data) (pos + data.length) ret data' = written f pos ret (data ++ data') := by
  have hzero : (0 : ℤ) ≠ -E_NO_MEM := by decide
  by_cases hnil : data = []
  · have hfirst : written f pos 0 [] = f := if_pos ⟨rfl, hzero⟩
    rw [hnil, hfirst]
    rfl
  · have hfirst : written f pos 0 data = writeAt f pos data := if_neg fun h => hnil h.1
    have hboth : written f pos ret (data ++ data') = writeAt f pos (data ++ data') :=
      if_neg fun h => hnil (List.append_eq_nil_iff.mp h.1).1
    rw [hfirst, hboth, written]
    by_cases hrest : data' = [] ∧ ret ≠ -E_NO_MEM
    · rw [if_pos hrest, hrest.1, List.append_nil]
    · rw [if_neg hrest, writeAt_writeAt]

/-- The first `n` bytes of the user at `base`. -/
def fromUser (mem : Vmm.Memory) (base : Uintptr) (n : ℕ) : List UInt8 :=
  (List.range n).map fun i => mem (base + BitVec.ofNat 64 i)

theorem length_fromUser (mem : Vmm.Memory) (base : Uintptr) (n : ℕ) : (fromUser mem base n).length = n := by
  rw [fromUser, List.length_map, List.length_range]

theorem fromUser_add (mem : Vmm.Memory) (base : Uintptr) (m n : ℕ) :
    fromUser mem base (m + n) = fromUser mem base m ++ fromUser mem (base + BitVec.ofNat 64 m) n := by
  rw [fromUser, fromUser, fromUser, List.range_add, List.map_append, List.map_map]
  congr 1
  refine List.map_congr_left fun i _ => ?_
  rw [Vmm.add_ofNat]
  rfl

theorem load_fromUser {mem : Vmm.Memory} {base : Uintptr} {buffer : Mem} {m n : ℕ} (h : m ≤ n) :
    (List.range m).map (load mem base buffer n) = fromUser mem base m := by
  refine List.map_congr_left fun i hi => ?_
  have hlt := List.mem_range.mp hi
  rw [load, if_pos (by omega)]

/-! ### The loop -/

/-- Why the loop ends in `s'`: all bytes have been written, the position is too high, `user_mem_check` refuses the
next chunk, or there are fewer free blocks than the next block of the file costs. -/
inductive WriteStop (s s' : Sys ι δ) (file : File ι) (base : Uintptr) (len : ℕ) : ℤ → ℕ → Prop
  | all : WriteStop s s' file base len 0 len
  | refused {k : ℕ} (hlt : k < len) (hpos : SFS_MAX_FILE_SIZE ≤ file.pos + k) :
      WriteStop s s' file base len (-E_INVAL) k
  | fault {k : ℕ} (hlt : k < len) (hcheck : (userMemCheck s.mm (base + BitVec.ofNat 64 k)
      (BitVec.ofNat 64 (min IOBUF_SIZE (len - k))) false).1 = false) : WriteStop s s' file base len (-E_INVAL) k
  | full {k : ℕ} (hlt : k < len)
      (hno : NoBlock s'.files.image.fs (s'.files.image.inode file.node).din) :
      WriteStop s s' file base len (-E_NO_MEM) k

section

variable [DecidableEq ι] [DecidableEq δ] {s₀ s s' : Sys ι δ} {d : δ} {file : File ι} {base : Uintptr}
variable {len n : ℕ} {ret : ℤ}

/-- The first `n` bytes have been written, and the last round has returned `ret`. -/
structure Writing (s₀ : Sys ι δ) (d : δ) (file : File ι) (base : Uintptr) (len : ℕ) (ret : ℤ) (n : ℕ)
    (s : Sys ι δ) : Prop where
  blank : BlankFiles s.files.image
  view : s.files.view =
    ⟨Function.update s₀.files.view.bytes file.node (written (s₀.files.view.bytes file.node) file.pos.toNat ret
        (fromUser s₀.mem base n)),
      Function.update s₀.files.fd d (some { file with pos := file.pos + n })⟩
  mem : s.mem = s₀.mem
  mm : SameMm s₀.mm s.mm
  le : n ≤ len
  blocks : n ≠ 0 → file.pos.toNat + n ≤ s.files.blocks file.node * SFS_BLKSIZE

theorem Writing.refl (hblank : BlankFiles s.files.image) (hk : Vmm.Kept s.mm) (hfd : s.files.fd d = some file) :
    Writing s d file base len 0 0 s := by
  have hfile : { file with pos := file.pos + (0 : ℕ) } = file := by
    cases file
    simp
  have hfds : Function.update s.files.fd d (some { file with pos := file.pos + (0 : ℕ) }) = s.files.fd := by
    rw [hfile, ← hfd]
    exact Function.update_eq_self _ _
  have hbytes : Function.update s.files.view.bytes file.node (written (s.files.view.bytes file.node) file.pos.toNat 0
      (fromUser s.mem base 0)) = s.files.view.bytes := by
    have hnone : fromUser s.mem base 0 = [] := rfl
    rw [hnone, written, if_pos ⟨rfl, by decide⟩]
    exact Function.update_eq_self _ _
  refine ⟨hblank, ?_, rfl, ⟨hk, rfl⟩, Nat.zero_le _, fun hne => absurd rfl hne⟩
  rw [hfds, hbytes]
  rfl

/-- One round writes a chunk from the buffer. -/
theorem Writing.chunk (h : Writing s₀ d file base len 0 n s) (hw : file.writable = true) (hpos : 0 ≤ file.pos)
    (hlt : n < len) {buffer : Mem} {alen : ℕ} {files : Files ι δ}
    (hrun : fileWrite s.files d (load s.mem (base + BitVec.ofNat 64 n) buffer (min IOBUF_SIZE (len - n)))
      (UInt64.ofNat (min IOBUF_SIZE (len - n))) = .ok (ret, alen, files)) {mm : Option MmStruct}
    (hmm : SameMm s₀.mm mm) :
    Writing s₀ d file base len ret (n + alen) ⟨files, mm, s.mem⟩ ∧
      (ret = 0 ∧ 0 < alen ∨ ret = -E_INVAL ∧ alen = 0 ∧ SFS_MAX_FILE_SIZE ≤ file.pos + n ∨
        ret = -E_NO_MEM ∧ n + alen < len ∧ NoBlock files.image.fs (files.image.inode file.node).din) := by
  have hview := h.view
  have hbuffer : IOBUF_SIZE = 4096 := rfl
  have hfd : s.files.fd d = some { file with pos := file.pos + n } := by
    have heq := congrArg (fun v => ByteFiles.fd v d) hview
    exact heq.trans (Function.update_self _ _ _)
  have hbytes : s.files.view.bytes file.node = written (s₀.files.view.bytes file.node) file.pos.toNat 0
      (fromUser s₀.mem base n) := by
    rw [hview]
    exact Function.update_self _ _ _
  have hsmall : (UInt64.ofNat (min IOBUF_SIZE (len - n))).toNat = min IOBUF_SIZE (len - n) := by
    rw [UInt64.toNat_ofNat', IOBUF_SIZE]
    omega
  have htoNat : (file.pos + n).toNat = file.pos.toNat + n := by omega
  obtain ⟨hblank, hstop, hview', hmono, hbacked, hno⟩ := h.blank.write_opened hfd hw hrun
  dsimp only at hstop hview' hmono hbacked hno
  rw [hsmall] at hstop
  have halen : alen ≤ min IOBUF_SIZE (len - n) := by
    cases hstop with
    | done => exact le_rfl
    | refused => exact Nat.zero_le _
    | full hacc hd => exact Nat.le_of_lt hd
  refine ⟨⟨hblank, ?_, h.mem, hmm, by omega, fun hne => ?_⟩, ?_⟩
  · have hlen := length_fromUser s₀.mem base n
    have hdata : written (s.files.view.bytes file.node) (file.pos + n).toNat ret
        ((List.range alen).map (load s.mem (base + BitVec.ofNat 64 n) buffer (min IOBUF_SIZE (len - n)))) =
          written (s₀.files.view.bytes file.node) file.pos.toNat ret (fromUser s₀.mem base (n + alen)) := by
      rw [load_fromUser halen, h.mem, hbytes, htoNat, fromUser_add, ← written_written, hlen]
    have hfds : s.files.fd = Function.update s₀.files.fd d (some { file with pos := file.pos + n }) :=
      congrArg ByteFiles.fd hview
    have hrest : s.files.view.bytes = Function.update s₀.files.view.bytes file.node
        (s.files.view.bytes file.node) := by
      rw [hbytes]
      exact congrArg ByteFiles.bytes hview
    rw [hview', hdata, hfds, Function.update_idem, hrest, Function.update_idem, Int.add_assoc, ← Int.natCast_add]
  · by_cases hzero : alen = 0
    · rw [hzero, Nat.add_zero] at hne ⊢
      exact (h.blocks hne).trans (Nat.mul_le_mul_right _ hmono)
    · have hle := hbacked hzero
      rw [htoNat, Nat.add_assoc] at hle
      exact hle
  · cases hstop with
    | done => exact .inl ⟨rfl, by omega⟩
    | refused hacc =>
      refine .inr (.inl ⟨rfl, rfl, ?_⟩)
      by_contra hlow
      have hmax : SFS_MAX_FILE_SIZE = (maxFileSize : ℤ) := rfl
      have hconst : maxFileSize = 134217728 := rfl
      exact hacc ⟨by omega, by omega, by omega⟩
    | full hacc hd => exact .inr (.inr ⟨rfl, by omega, hno rfl⟩)

/-- The user may not give the next chunk. -/
theorem Writing.fault (h : Writing s₀ d file base len 0 n s) {mm : Option MmStruct} (hmm : SameMm s₀.mm mm) :
    Writing s₀ d file base len (-E_INVAL) n { s with mm := mm } := by
  refine ⟨h.blank, h.view.trans ?_, h.mem, hmm, h.le, h.blocks⟩
  have hsame : ∀ f pos data, written f pos 0 data = written f pos (-E_INVAL) data := by
    intro f pos data
    have hzero : (0 : ℤ) ≠ -E_NO_MEM := by decide
    have hinval : -E_INVAL ≠ -E_NO_MEM := by decide
    rw [written, written]
    simp only [hzero, hinval, ne_eq, not_false_eq_true, and_true]
  rw [hsame]

/-- **The loop**, where it ends without a panic. -/
theorem writeLoop_spec (hk : Vmm.Kept s₀.mm) (hw : file.writable = true) (hpos : 0 ≤ file.pos)
    (h : Writing s₀ d file base len 0 n s) (buffer : Mem) {copied : ℕ}
    (hrun : writeLoop s d buffer (base + BitVec.ofNat 64 n) (len - n) n = .ok (ret, copied, s')) :
    Writing s₀ d file base len ret copied s' ∧ WriteStop s₀ s' file base len ret copied := by
  -- on the number of bytes that are left
  induction hleft : len - n using Nat.strong_induction_on generalizing n s buffer with
  | _ left ih =>
    have hle := h.le
    rw [writeLoop] at hrun
    by_cases hzero : left = 0
    · rw [if_pos (by omega)] at hrun
      have hn : n = len := by omega
      subst hn
      cases hrun
      exact ⟨h, .all⟩
    · rw [if_neg (by omega), copyFromUser] at hrun
      cases hcheck : userMemCheck s.mm (base + BitVec.ofNat 64 n) (BitVec.ofNat 64 (min IOBUF_SIZE (len - n))) false
        with
      | mk ok mm =>
        obtain ⟨hmm, hok⟩ := h.mm.check hk hcheck
        rw [hcheck] at hrun
        cases ok with
        | false =>
          cases hrun
          exact ⟨h.fault hmm, .fault (by omega) hok⟩
        | true =>
          dsimp only at hrun
          cases hwrite : fileWrite s.files d
              (load s.mem (base + BitVec.ofNat 64 n) buffer (min IOBUF_SIZE (len - n)))
              (UInt64.ofNat (min IOBUF_SIZE (len - n))) with
          | error p =>
            rw [hwrite] at hrun
            cases hrun
          | ok r =>
            obtain ⟨ret₁, alen, files⟩ := r
            rw [hwrite] at hrun
            dsimp only at hrun
            obtain ⟨hnext, hcases⟩ := h.chunk hw hpos (by omega) hwrite hmm
            have hfits := hnext.le
            by_cases halen : alen = 0
            · subst halen
              rw [if_pos rfl] at hrun
              cases hrun
              refine ⟨hnext, ?_⟩
              rcases hcases with ⟨-, hlt⟩ | ⟨rfl, -, hge⟩ | ⟨rfl, hlt, hno⟩
              · exact absurd hlt (Nat.lt_irrefl _)
              · exact .refused (by omega) hge
              · exact .full hlt hno
            · rw [if_neg halen, if_neg (by omega)] at hrun
              by_cases hret : ret₁ = 0
              · rw [if_neg (not_not.mpr hret), Vmm.add_ofNat, Nat.sub_sub] at hrun
                subst hret
                exact ih (len - (n + alen)) (by omega) hnext _ hrun rfl
              · rw [if_pos hret] at hrun
                cases hrun
                refine ⟨hnext, ?_⟩
                rcases hcases with ⟨hret₀, -⟩ | ⟨-, hnone, -⟩ | ⟨rfl, hlt, hno⟩
                · exact absurd hret₀ hret
                · exact absurd hnone halen
                · exact .full hlt hno

/-! ### The call -/

/-- What has been written is in the file. -/
theorem Writing.length (h : Writing s₀ d file base len ret n s) (hn : n ≠ 0) :
    file.pos.toNat + n ≤ (s.files.view.bytes file.node).length := by
  have hne : fromUser s₀.mem base n ≠ [] := by
    intro hnil
    have hlen := congrArg List.length hnil
    rw [length_fromUser] at hlen
    exact hn hlen
  rw [h.view]
  dsimp only
  rw [Function.update_self, written, if_neg fun hc => hne hc.1, length_writeAt, length_fromUser]
  exact Nat.le_max_right _ _

theorem write_five : ∃ s' : Sys Unit Bool,
    sysfileWrite ⟨oneDescriptor tinyFs, none, fun _ => 1⟩ (some fun _ => 0) false Vmm.KERNBASE 5 = .ok (5, s') := by
  have hcheck : (sysfileWrite ⟨oneDescriptor tinyFs, none, fun _ => 1⟩ (some fun _ => 0) false Vmm.KERNBASE
      5).toOption.any (fun r => decide (r.1 = 5)) = true := by
    decide +kernel
  cases hrun : sysfileWrite ⟨oneDescriptor tinyFs, none, fun _ => 1⟩ (some fun _ => 0) false Vmm.KERNBASE 5 with
  | error p =>
    rw [hrun] at hcheck
    cases hcheck
  | ok r =>
    obtain ⟨ret, s'⟩ := r
    rw [hrun] at hcheck
    have hret : ret = 5 := of_decide_eq_true hcheck
    exact ⟨s', by rw [hret]⟩

/-- **`sysfile_write`**, where it ends without a panic: it returns the number `n` of bytes that it has written, or
why there is none.  They are the bytes of the user, the position has moved over them, and nothing else has
changed, but for the zeros before a position behind the end. -/
theorem sysfileWrite_exact (h : Reachable s.files) (hk : Vmm.Kept s.mm) (hfd : s.files.fd d = some file)
    (hw : file.writable = true) {buffer : Mem} {base : Uintptr} {len : UInt64} (hlen : len ≠ 0) {result : ℤ}
    (hrun : sysfileWrite s (some buffer) d base len = .ok (result, s')) :
    ∃ (ret : ℤ) (n : ℕ), result = (if n ≠ 0 then (n : ℤ) else ret) ∧
      Writing s d file base len.toNat ret n s' ∧ WriteStop s s' file base len.toNat ret n := by
  obtain ⟨hblank, hpos⟩ := h.blankFiles
  have htest : fileTestfd s.files d false true = true := by
    rw [fileTestfd, hfd]
    dsimp only
    rw [hw]
    rfl
  have hbase : base + BitVec.ofNat 64 0 = base := BitVec.add_zero _
  rw [sysfileWrite, if_neg hlen, htest, if_neg (by decide)] at hrun
  dsimp only at hrun
  cases hloop : writeLoop s d buffer base len.toNat 0 with
  | error p =>
    rw [hloop] at hrun
    cases hrun
  | ok r =>
    obtain ⟨ret, n, s₁⟩ := r
    rw [hloop] at hrun
    cases hrun
    rw [← hbase, ← Nat.sub_zero len.toNat] at hloop
    obtain ⟨hwriting, hstop⟩ := writeLoop_spec hk hw (hpos d file hfd) (.refl hblank hk hfd) buffer hloop
    have hsmall : n < 2 ^ 31 := by
      by_cases hn : n = 0
      · omega
      · have hle := hwriting.length hn
        have hlt := length_view_lt hwriting.blank file.node
        have hmax : SFS_MAX_FILE_SIZE = 134217728 := rfl
        omega
    exact ⟨ret, n, returned_eq hsmall, hwriting, hstop⟩

/-- The first five bytes of the empty file. -/
theorem sysfileWrite_exact_five : ∃ (s' : Sys Unit Bool) (ret : ℤ) (n : ℕ),
    sysfileWrite ⟨oneDescriptor tinyFs, none, fun _ => 1⟩ (some fun _ => 0) false Vmm.KERNBASE 5 = .ok (5, s') ∧
      5 = (if n ≠ 0 then (n : ℤ) else ret) ∧
      Writing ⟨oneDescriptor tinyFs, none, fun _ => 1⟩ false ⟨(), 0, true, true⟩ Vmm.KERNBASE 5 ret n s' := by
  obtain ⟨s', hrun⟩ := write_five
  obtain ⟨ret, n, hresult, hwriting, -⟩ := sysfileWrite_exact reachable_oneDescriptor kept_none rfl rfl
    (show (5 : UInt64) ≠ 0 by decide) hrun
  exact ⟨s', ret, n, hrun, hresult, hwriting⟩

/-! ### Reading back -/

/-- A byte that has been written. -/
theorem Writing.getD (h : Writing s₀ d file base len ret n s) {i : ℕ} (hi : i < n) :
    (s.files.view.bytes file.node).getD (file.pos.toNat + i) 0 = s₀.mem (base + BitVec.ofNat 64 i) := by
  have hlen := length_fromUser s₀.mem base n
  have hne : fromUser s₀.mem base n ≠ [] := by
    intro hnil
    rw [hnil] at hlen
    have hzero : n = 0 := hlen.symm
    omega
  rw [h.view]
  dsimp only
  rw [Function.update_self, written, if_neg fun hc => hne hc.1, getD_writeAt, hlen, if_pos ⟨by omega, by omega⟩,
    Nat.add_sub_cancel_left, fromUser, getD_range_map hi]

/-- A seek back to the position before the write. -/
theorem Writing.seek (h : Writing s₀ d file base len ret n s) (hpos : 0 ≤ file.pos) (hn : n ≠ 0) :
    fileSeek s.files d file.pos 0 = .ok (0, s.files.setFd d file) := by
  have hfd : s.files.fd d = some { file with pos := file.pos + n } := by
    have heq := congrArg (fun v => ByteFiles.fd v d) h.view
    exact heq.trans (Function.update_self _ _ _)
  have hlen : (s.files.view.bytes file.node).length = (s.files.image.inode file.node).din.size :=
    length_contents _ _
  have hle := h.length hn
  have hlt := length_view_lt h.blank file.node
  have hcall := sfsTryseek_call file.pos (h.blank.ok.file file.node)
  rw [fileSeek, hfd]
  show (sfsTryseek s.files.image.fs (s.files.image.inode file.node) file.pos >>= _) = _
  generalize sfsTryseek s.files.image.fs (s.files.image.inode file.node) file.pos = x at hcall
  cases hcall with
  | refused hrange => omega
  | inside =>
    rw [ok_bind]
    dsimp only
    rw [if_pos rfl, s.files.image.set_self]
  | grows heq hmax hgt => omega

/-- **What has been written is read back.**  After a write that has returned `n`, a seek to where it began and a read
of `n` bytes give the user the same bytes, wherever they may be written. -/
theorem write_then_read (h : Reachable s.files) (hk : Vmm.Kept s.mm) (hfd : s.files.fd d = some file)
    (hw : file.writable = true) (hr : file.readable = true) {buffer : Mem} {base : Uintptr} {len : UInt64} {n : ℕ}
    (hn : n ≠ 0) (hrun : sysfileWrite s (some buffer) d base len = .ok ((n : ℤ), s')) (buffer' : Mem)
    {base' : Uintptr} (haccess : ∀ o l, 0 < l → o + l ≤ n →
      (userMemCheck s.mm (base' + BitVec.ofNat 64 o) (BitVec.ofNat 64 l) true).1 = true) :
    ∃ files s₂, fileSeek s'.files d file.pos 0 = .ok (0, files) ∧
      sysfileRead { s' with files := files } (some buffer') d base' (UInt64.ofNat n) = .ok ((n : ℤ), s₂) ∧
      (∀ i < n, s₂.mem (base' + BitVec.ofNat 64 i) = s.mem (base + BitVec.ofNat 64 i)) ∧
      s₂.files.view.bytes = s'.files.view.bytes := by
  have hpos := h.blankFiles.2 d file hfd
  have hlen : len ≠ 0 := by
    rintro rfl
    rw [sysfileWrite, if_pos rfl] at hrun
    cases hrun
    exact hn rfl
  obtain ⟨ret, m, hresult, hwriting, hstop⟩ := sysfileWrite_exact h hk hfd hw hlen hrun
  have hm : m = n := by
    by_cases hzero : m = 0
    · rw [if_neg (not_not.mpr hzero)] at hresult
      have hneg : ret ≤ 0 := by
        cases hstop with
        | all => exact le_rfl
        | refused => decide
        | fault => decide
        | full => decide
      omega
    · rw [if_pos hzero] at hresult
      omega
  subst hm
  have hseek := hwriting.seek hpos hn
  have hbound := hwriting.le
  have hlt := len.toNat_lt
  have htoNat : (UInt64.ofNat m).toNat = m := by
    rw [UInt64.toNat_ofNat']
    omega
  have hne : UInt64.ofNat m ≠ 0 := by
    intro hzero
    rw [hzero] at htoNat
    exact hn htoNat.symm
  have hself : (s'.files.setFd d file).fd d = some file := Function.update_self _ _ _
  obtain ⟨ret', k, lost, s₂, hread, hreading, hend⟩ := sysfileRead_spec
    (s := { s' with files := s'.files.setFd d file }) hwriting.blank hwriting.mm.1 hself hr hpos buffer' base' hne
  rw [htoNat] at hreading hend
  have havail : available { s' with files := s'.files.setFd d file } file m = m := by
    refine Nat.min_eq_left (Nat.le_sub_of_add_le ?_)
    rw [Nat.add_comm]
    exact hwriting.length hn
  have hall : k = m := by
    cases hend with
    | all hret hk => exact hk.trans havail
    | full hk hblocks =>
      rw [havail] at hblocks
      exact absurd (hwriting.blocks hn) (Nat.not_le.mpr hblocks)
    | fault hret hlost hle hcheck =>
      have hfits := hreading.le
      rw [havail] at hfits
      have hpass := haccess k lost hlost hfits
      rw [← userMemCheck_congr hk hwriting.mm.1 hwriting.mm.2] at hpass
      exact absurd (hcheck.symm.trans hpass) Bool.false_ne_true
  subst hall
  rw [if_pos hn] at hread
  refine ⟨_, s₂, hseek, hread, fun i hi => ?_, by rw [hreading.view]; rfl⟩
  have hoffset : (base' + BitVec.ofNat 64 i - base').toNat = i := by
    rw [BitVec.add_comm, BitVec.add_sub_cancel]
    rw [BitVec.toNat_ofNat]
    omega
  rw [hreading.mem, store, hoffset, if_pos hi]
  exact hwriting.getD hi

/-- The five bytes, read to the next page. -/
theorem write_then_read_five : ∃ (s' s₂ : Sys Unit Bool) (files : Files Unit Bool),
    sysfileWrite ⟨oneDescriptor tinyFs, none, fun _ => 1⟩ (some fun _ => 0) false Vmm.KERNBASE 5 = .ok (5, s') ∧
      sysfileRead { s' with files := files } (some fun _ => 0) false (Vmm.KERNBASE + 0x1000) 5 = .ok (5, s₂) ∧
      ∀ i < 5, s₂.mem (Vmm.KERNBASE + 0x1000 + BitVec.ofNat 64 i) = 1 := by
  obtain ⟨s', hrun⟩ := write_five
  have haccess : ∀ o < 5, ∀ l < 6, 0 < l → o + l ≤ 5 →
      (userMemCheck none (Vmm.KERNBASE + 0x1000 + BitVec.ofNat 64 o) (BitVec.ofNat 64 l) true).1 = true := by
    decide
  obtain ⟨files, s₂, -, hread, hbytes, -⟩ := write_then_read reachable_oneDescriptor kept_none rfl rfl rfl
    (show 5 ≠ 0 by decide) hrun (fun _ => 0) fun o l hl hle => haccess o (by omega) l (by omega) hl hle
  exact ⟨s', s₂, files, hrun, hread, hbytes⟩

end

end Ucore.Sysfile
