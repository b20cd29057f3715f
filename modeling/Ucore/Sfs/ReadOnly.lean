import Ucore.Sfs.Outcomes

/-!
# Descriptors that are opened to read

`file_write` asks the descriptor whether it may write.  `file_seek` and the truncation by `O_CREAT` in `vfs_open`
do not: a seek behind the end makes the file longer, and an open with `O_CREAT` empties a file that is there.

**`readOnly_runs`**: where no descriptor may write and no open asks for it, these are the only calls that change a
file, and without `O_CREAT` all that happens to a file is that zeros are appended.
-/

namespace Ucore.Sfs

open Memory Bytes Transition

variable {ι δ : Type} [DecidableEq ι] [DecidableEq δ]

/-! ### Byte arrays -/

section

variable {s s' : ByteFiles ι δ} {op : FileOp ι δ} {ret : ℤ} {j : ι}

def ByteFiles.ReadOnly (s : ByteFiles ι δ) : Prop := ∀ d file, s.fd d = some file → file.writable = false

/-- A seek on a descriptor of `j` to a position behind the end. -/
def FileOp.Grows (s : ByteFiles ι δ) (j : ι) (op : FileOp ι δ) : Prop :=
  ∃ d pos whence file p, op = .seek d pos whence ∧ s.fd d = some file ∧ file.node = j ∧
    seekTarget pos whence file.pos (s.bytes j).length = some p ∧ (s.bytes j).length < p

/-- An open of `j` with `O_CREAT`. -/
def FileOp.Creates (j : ι) (op : FileOp ι δ) : Prop := ∃ d flags, op = .open d j flags ∧ testFlag flags O_CREAT = true

/-- `op` does not open a file to write. -/
def FileOp.AsksToRead : FileOp ι δ → Prop
  | .open _ _ flags => accessMode flags ≠ some true
  | _ => True

/-- Nothing is written. -/
theorem ByteFiles.ReadOnly.write (hs : s.ReadOnly) {d : δ} {base : Mem} {len : UInt64}
    (h : s.Call (.write d base len) ret s') : ret < 0 ∧ s' = s := by
  cases h with
  | refused hret => exact ⟨hret, rfl⟩
  | write hfd hw => exact absurd ((hs _ _ hfd).symm.trans hw) Bool.false_ne_true

/-- An open that truncates has `O_CREAT`, for `O_TRUNC` needs a descriptor that may write. -/
theorem creates_of_truncates {flags : BitVec 32} {canWrite : Bool} (hmode : accessMode flags = some canWrite)
    (hread : accessMode flags ≠ some true) (hcheck : vfsOpenCheck flags canWrite = 0)
    (ht : testFlag flags O_TRUNC = true ∨ testFlag flags O_CREAT = true) :
    canWrite = false ∧ testFlag flags O_CREAT = true := by
  have hfalse : canWrite = false := by
    cases canWrite with
    | false => rfl
    | true => exact absurd hmode hread
  refine ⟨hfalse, ht.resolve_left fun htrunc => ?_⟩
  rw [vfsOpenCheck, if_pos ⟨htrunc, hfalse⟩] at hcheck
  exact inval_ne_zero hcheck

theorem ByteFiles.ReadOnly.step (hs : s.ReadOnly) (h : s.Call op ret s') (hop : op.AsksToRead) : s'.ReadOnly := by
  have hupdate : ∀ (d : δ) (file : File ι), file.writable = false → ∀ e g,
      Function.update s.fd d (some file) e = some g → g.writable = false := by
    intro d file hfile e g hg
    by_cases hed : e = d
    · rw [hed, Function.update_self] at hg
      cases hg
      exact hfile
    · rw [Function.update_of_ne hed] at hg
      exact hs e g hg
  cases h with
  | refused => exact hs
  | write hfd hw => exact absurd ((hs _ _ hfd).symm.trans hw) Bool.false_ne_true
  | read hfd =>
    have hfile := hs _ _ hfd
    exact hupdate _ _ hfile
  | seek hfd =>
    have hfile := hs _ _ hfd
    exact hupdate _ _ hfile
  | @«open» d j flags canWrite bytes hfd hmode =>
    refine hupdate d _ ?_
    cases canWrite with
    | false => rfl
    | true => exact absurd hmode hop

/-- **Which calls change a file.** -/
theorem ByteFiles.ReadOnly.changes_iff (hs : s.ReadOnly) (h : s.Call op ret s') (hop : op.AsksToRead) :
    s'.bytes j ≠ s.bytes j ↔ ret = 0 ∧ (op.Grows s j ∨ op.Creates j ∧ s.bytes j ≠ []) := by
  cases h with
  | refused hret => exact iff_of_false (fun hne => hne rfl) fun hzero => Int.ne_of_lt hret hzero.1
  | write hfd hw => exact absurd ((hs _ _ hfd).symm.trans hw) Bool.false_ne_true
  | read hfd =>
    refine iff_of_false (fun hne => hne rfl) ?_
    rintro ⟨-, ⟨d, pos, whence, file, p, hseek, -⟩ | ⟨⟨d, flags, hopen, -⟩, -⟩⟩
    · cases hseek
    · cases hopen
  | @seek d pos p whence file hfd htarget h₀ hmax =>
    constructor
    · intro hne
      have hnode : file.node = j := by
        by_contra hnode
        exact hne (Function.update_of_ne (Ne.symm hnode) _ _)
      subst hnode
      refine ⟨rfl, .inl ⟨d, pos, whence, file, p, rfl, hfd, rfl, htarget, ?_⟩⟩
      by_contra hle
      refine hne ((Function.update_self _ _ _).trans (padTo_of_le ?_))
      omega
    · rintro ⟨-, ⟨d, pos, whence, file, q, hseek, hfile, rfl, hq, hlt⟩ | ⟨⟨d, flags, hopen, -⟩, -⟩⟩
      · cases hseek
        rw [hfd] at hfile
        cases hfile
        rw [htarget] at hq
        cases hq
        intro heq
        have hlen := congrArg List.length heq
        dsimp only at hlen
        rw [Function.update_self, length_padTo] at hlen
        omega
      · cases hopen
  | @«open» d l flags canWrite bytes hfd hmode hcheck hbytes =>
    by_cases ht : testFlag flags O_TRUNC = true ∨ testFlag flags O_CREAT = true
    · rw [if_pos ht] at hbytes
      subst hbytes
      constructor
      · intro hne
        have hnode : l = j := by
          by_contra hnode
          exact hne (Function.update_of_ne (Ne.symm hnode) _ _)
        subst hnode
        refine ⟨rfl, .inr ⟨⟨d, flags, rfl, (creates_of_truncates hmode hop hcheck ht).2⟩, ?_⟩⟩
        exact fun hnil => hne ((Function.update_self _ _ _).trans hnil.symm)
      · rintro ⟨-, ⟨d, pos, whence, file, q, hseek, -⟩ | ⟨⟨d, flags, hopen, -⟩, hne⟩⟩
        · cases hseek
        · cases hopen
          exact fun heq => hne (heq.symm.trans (Function.update_self _ _ _))
    · rw [if_neg ht] at hbytes
      subst hbytes
      refine iff_of_false (fun hne => hne rfl) ?_
      rintro ⟨-, ⟨d, pos, whence, file, q, hseek, -⟩ | ⟨⟨d, flags, hopen, hcreat⟩, -⟩⟩
      · cases hseek
      · cases hopen
        exact ht (.inr hcreat)

/-- Without `O_CREAT` a call appends zeros, if anything. -/
theorem ByteFiles.ReadOnly.grows (hs : s.ReadOnly) (h : s.Call op ret s') (hop : op.AsksToRead)
    (hcreat : ∀ j, ¬ op.Creates j) (j : ι) : ∃ n, s'.bytes j = padTo (s.bytes j) n := by
  cases h with
  | refused => exact ⟨0, (padTo_of_le (Nat.zero_le _)).symm⟩
  | write hfd hw => exact absurd ((hs _ _ hfd).symm.trans hw) Bool.false_ne_true
  | read => exact ⟨0, (padTo_of_le (Nat.zero_le _)).symm⟩
  | @seek d pos p whence file =>
    by_cases hnode : j = file.node
    · subst hnode
      exact ⟨p.toNat, Function.update_self _ _ _⟩
    · exact ⟨0, (Function.update_of_ne hnode _ _).trans (padTo_of_le (Nat.zero_le _)).symm⟩
  | @«open» d l flags canWrite bytes hfd hmode hcheck hbytes =>
    have ht : ¬ (testFlag flags O_TRUNC = true ∨ testFlag flags O_CREAT = true) := fun ht =>
      hcreat l ⟨d, flags, rfl, (creates_of_truncates hmode hop hcheck ht).2⟩
    rw [if_neg ht] at hbytes
    subst hbytes
    exact ⟨0, (padTo_of_le (Nat.zero_le _)).symm⟩

variable {s₀ : ByteFiles ι δ} {calls : List (FileOp ι δ × ℤ)}

theorem ByteFiles.ReadOnly.run (hs : s₀.ReadOnly) (hrun : Trace ByteFiles.Returns s₀ calls s)
    (hops : ∀ call ∈ calls, call.1.AsksToRead) : s.ReadOnly := by
  induction hrun with
  | nil => exact hs
  | snoc _ hcall ih =>
    have hlast := hops _ (List.mem_append_right _ (List.mem_singleton.mpr rfl))
    exact (ih fun call hmem => hops call (List.mem_append_left _ hmem)).step hcall hlast

theorem ByteFiles.ReadOnly.run_grows (hs : s₀.ReadOnly) (hrun : Trace ByteFiles.Returns s₀ calls s)
    (hops : ∀ call ∈ calls, call.1.AsksToRead) (hcreat : ∀ call ∈ calls, ∀ j, ¬ call.1.Creates j) (j : ι) :
    ∃ n, s.bytes j = padTo (s₀.bytes j) n := by
  induction hrun with
  | nil => exact ⟨0, (padTo_of_le (Nat.zero_le _)).symm⟩
  | @snoc s s' calls call hrun hcall ih =>
    have hlast := List.mem_append_right calls (List.mem_singleton.mpr (rfl : call = call))
    have hbefore : ∀ c ∈ calls, c.1.AsksToRead := fun c hmem => hops c (List.mem_append_left _ hmem)
    obtain ⟨m, hm⟩ := ih hbefore fun c hmem => hcreat c (List.mem_append_left _ hmem)
    obtain ⟨n, hn⟩ := (hs.run hrun hbefore).grows hcall (hops _ hlast) (hcreat _ hlast) j
    refine ⟨max m n, hn.trans ?_⟩
    rw [hm]
    rcases Nat.le_total m n with hle | hle
    · rw [padTo_padTo hle, Nat.max_eq_right hle]
    · rw [padTo_of_le (by rw [length_padTo]; omega), Nat.max_eq_left hle]

end

/-! ### The files -/

variable {s s₀ : Files ι δ} {calls : List (FileOp ι δ × ℤ)}

/-- **Runs in which nothing is opened to write.**  No descriptor may write and every write is refused; a file
changes exactly where a seek behind its end or an open with `O_CREAT` succeeds; and without `O_CREAT` a file keeps
its bytes, with zeros behind them. -/
theorem readOnly_runs (h₀ : RegularFiles s₀.image)
    (hz : ∀ j y, (s₀.image.inode j).din.size ≤ y → y / 4096 < 1036 →
      byteAt s₀.image.fs (s₀.image.inode j).din y = 0)
    (hfd : ∀ d file, s₀.fd d = some file → file.writable = false) (hrun : Trace Files.Returns s₀ calls s)
    (hops : ∀ call ∈ calls, call.1.AsksToRead) :
    (∀ d file, s.fd d = some file → file.writable = false) ∧
      (∀ (op : FileOp ι δ) ret s', op.run s = .ok (ret, s') → op.AsksToRead → ∀ j, s'.view.bytes j ≠ s.view.bytes j ↔
        ret = 0 ∧ (op.Grows s.view j ∨ op.Creates j ∧ s.view.bytes j ≠ [])) ∧
      (∀ d base len ret s', FileOp.run s (.write d base len) = .ok (ret, s') → ret < 0 ∧ s'.view = s.view) ∧
      ((∀ call ∈ calls, ∀ j, ¬ call.1.Creates j) →
        ∀ j, s.view.bytes j = padTo (s₀.view.bytes j) (s.view.bytes j).length) := by
  have hclean : CleanFiles s₀.image := ⟨h₀, hz⟩
  obtain ⟨hblank, htrace⟩ := hclean.blankFiles.run hrun
  have hs₀ : s₀.view.ReadOnly := hfd
  have hs := hs₀.run htrace hops
  refine ⟨hs, fun op ret s' hop hread j => hs.changes_iff (hblank.step hop).2 hread,
    fun d base len ret s' hop => hs.write (hblank.step hop).2, fun hcreat j => ?_⟩
  obtain ⟨n, hn⟩ := hs₀.run_grows htrace hops hcreat j
  rw [hn, length_padTo]
  rcases Nat.le_total (s₀.view.bytes j).length n with hle | hle
  · rw [Nat.max_eq_right hle]
  · rw [Nat.max_eq_left hle, padTo_of_le hle, padTo_of_le (Nat.le_refl _)]

/-- The empty file is opened to read, and a seek gives it two blocks. -/
theorem readOnly_runs_tiny : ∃ s₁ s₂ : Files Unit Bool,
    Files.Returns ⟨(oneDescriptor tinyFs).image, fun _ => none⟩ (.open false () O_RDONLY, 0) s₁ ∧
      s₁.Returns (.seek false 8192 0, 0) s₂ ∧ s₂.view.bytes () ≠ s₁.view.bytes () := by
  let s₁ : Files Unit Bool := Files.setFd
    ⟨(oneDescriptor tinyFs).image.set () tinyFs emptyFile, fun _ => none⟩ false ⟨(), 0, true, false⟩
  have hopen : Files.Returns ⟨(oneDescriptor tinyFs).image, fun _ => none⟩ (.open false () O_RDONLY, 0) s₁ := rfl
  have hrun : ∃ fs sin, sfsTruncfile tinyFs emptyFile 8192 = .ok (0, fs, sin) := ⟨_, _, rfl⟩
  obtain ⟨fs, sin, htr⟩ := hrun
  let s₂ : Files Unit Bool := Files.setFd ⟨s₁.image.set () fs sin, s₁.fd⟩ false ⟨(), 8192, true, false⟩
  have hseek : s₁.Returns (.seek false 8192 0, 0) s₂ := by
    show (sfsTryseek tinyFs emptyFile 8192 >>= _) = _
    rw [sfsTryseek_tiny, htr]
    rfl
  have hread : ∀ call ∈ [((.open false () O_RDONLY : FileOp Unit Bool), (0 : ℤ))], call.1.AsksToRead := by
    intro call hmem
    rw [List.mem_singleton.mp hmem]
    show accessMode O_RDONLY ≠ some true
    decide
  have hregular : RegularFiles (Files.mk (oneDescriptor tinyFs).image fun _ : Bool => none).image :=
    regularFiles_oneDescriptor fsOk_tinyFs
  obtain ⟨-, hchanges, -⟩ := readOnly_runs hregular (fun _ _ _ _ => if_pos (ite_self _))
    (fun d file h => by cases h) (.snoc .nil hopen) hread
  refine ⟨s₁, s₂, hopen, hseek, (hchanges _ _ _ hseek trivial ()).mpr ⟨rfl, .inl ?_⟩⟩
  exact ⟨false, 8192, 0, _, 8192, rfl, rfl, rfl, rfl, by decide⟩

end Ucore.Sfs
