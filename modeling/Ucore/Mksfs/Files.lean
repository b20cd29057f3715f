import Ucore.Mksfs.Progress
import Ucore.Mksfs.ReadBack

/-!
# Files from the host to the kernel

`mksfs` accepts files of up to 32768 blocks, with the numbers of the blocks behind the first
`maxBlocks` in a double table.  The kernel knows no double table.  **`file_round_trip`**: the kernel
reads a file as `mksfs` has read it if and only if it has at most `maxBlocks` blocks.
-/

namespace Ucore.Mksfs

open Bytes Fallible Function Memory Sfs Transition

variable {s s' s₀ s₁ s₂ s₃ : SfsFs} {use : ℕ → Use} {f g real n nblks d : ℕ} {img₀ img : ℕ → Mem}
  {calls calls' : List Call} {chunks : List (List UInt8)}

/-- The kernel finds a file with these bytes. -/
def ReadsAs (fs : Fs) (sin : Sfs.Inode) (data : List UInt8) : Prop :=
  sin.din.size = data.length ∧ ∀ offset len buf, offset + len ≤ data.length →
    ∃ io, sfsIoNolock fs sin buf (offset : ℕ) len false = .ok io ∧ io.ret = 0 ∧ io.alen = len ∧
      ∀ i < len, io.buf i = data.getD (offset + i) 0

/-- A file with blocks for the inode and one table. -/
theorem reads_short (hf : FileIs s use f SFS_TYPE_FILE chunks) (himg : ImageIs s use img)
    (hok : Ok s use) (hi : s.IsInode f) (hd : s.ninos ≤ d) (hchunks : Chunks SFS_BLKSIZE chunks)
    (hne : ∀ chunk ∈ chunks, chunk ≠ []) (hlen : chunks.flatten.length ≤ maxBlocks * SFS_BLKSIZE) :
    ReadsAs (mounted (deviceOf d img)).fs ⟨decodeInode (img f), f, false⟩ chunks.flatten := by
  obtain ⟨hsize, htype, hblocks⟩ := hf.decode himg hi (by decide)
  have hcount := hchunks.length hf.chunk hne
  have hmax : chunks.length ≤ maxBlocks := by
    have hconst : maxBlocks = 1036 := rfl
    rw [SFS_BLKSIZE] at hcount hlen
    omega
  obtain ⟨bs, hfound⟩ := hf.found himg hok hi hmax (d := d)
  have hfile := hfound.fileOk himg hok hd hblocks hmax
  have hregular : RegularFile (mounted (deviceOf d img)).fs (decodeInode (img f)) := by
    refine ⟨htype, hfile, ?_⟩
    rw [hblocks, hsize]
    exact hcount
  refine ⟨hsize, ?_⟩
  intro offset len buf hoff
  have hread : sfsIoNolock (mounted (deviceOf d img)).fs ⟨decodeInode (img f), f, false⟩ buf offset
      len false = _ := read_spec hregular (by dsimp only; omega) (by omega) buf
  have hall : min len ((decodeInode (img f)).size - offset) = len := by
    rw [hsize]
    omega
  refine ⟨_, hread, rfl, hall, ?_⟩
  intro i hi
  have hblock : (offset + i) / SFS_BLKSIZE < chunks.length := by
    rw [hcount, SFS_BLKSIZE]
    omega
  have hmem : bs.getD ((offset + i) / SFS_BLKSIZE) 0 ∈ bs := by
    rw [List.getD_eq_getElem _ _ (hfound.length ▸ hblock)]
    exact List.getElem_mem _
  show (if _ then _ else _) = _
  rw [if_pos (hall.symm ▸ hi), byteAt, hfound.block _ (hblock.trans_le hmax),
    if_neg (himg.inUse hok (hfound.has _ hmem) (d := d)).1,
    hfound.bytes _ hblock _ (Nat.mod_lt _ (by decide)), hchunks.getD_flatten hf.chunk (by decide)]

/-- The kernel panics when it reads block `maxBlocks`. -/
theorem read_behind {fs : Fs} {sin : Sfs.Inode} (htype : sin.din.type ≠ SFS_TYPE_DIR)
    (hsize : maxBlocks * SFS_BLKSIZE < sin.din.size) (hblocks : maxBlocks < sin.din.blocks) (buf : Mem) :
    sfsIoNolock fs sin buf (maxBlocks * SFS_BLKSIZE : ℕ) 1 false = .error .indexOutOfRange := by
  have hload : sfsBmapLoad fs sin maxBlocks = .error .indexOutOfRange :=
    sfsBmapLoad_out le_rfl hblocks.le
  have hlen : ioLen false sin.din (maxBlocks * SFS_BLKSIZE) 1 = 1 := by
    rw [ioLen, if_neg Bool.false_ne_true, maxFileSize]
    have hconst : maxBlocks * SFS_BLKSIZE = 4243456 := rfl
    omega
  have hdiv : maxBlocks * SFS_BLKSIZE / SFS_BLKSIZE = maxBlocks := Nat.mul_div_cancel _ (by decide)
  have hmod : maxBlocks * SFS_BLKSIZE % SFS_BLKSIZE = 0 := Nat.mul_mod_left _ _
  have hnone : (maxBlocks * SFS_BLKSIZE + 1) / SFS_BLKSIZE - maxBlocks = 0 := by decide
  have htransfer : ioTransfer false (maxBlocks * SFS_BLKSIZE) (maxBlocks * SFS_BLKSIZE + 1)
      ⟨0, 0, fs, sin, buf⟩ = .error .indexOutOfRange := by
    rw [ioTransfer]
    simp only [hdiv, hmod, hnone, ne_eq, not_true_eq_false, if_false, ok_bind, ioBlocks, Nat.add_zero,
      Nat.lt_succ_self, if_true, ioPart, hload, error_bind]
  rw [sfsIoNolock_eq htype (by decide) (by decide) (by decide) fun _ => hsize, hlen, htransfer,
    error_bind]

/-- The image of a state with the file. -/
theorem FileIs.round_trip (hf : FileIs s use f SFS_TYPE_FILE chunks) (hok : Ok s use)
    (hi : s.IsInode f) (hd : s.ninos ≤ d) (hchunks : Chunks SFS_BLKSIZE chunks)
    (hne : ∀ chunk ∈ chunks, chunk ≠ []) :
    ∃ img m, s.closeSfs = .ok img ∧ sfsDoMount (deviceOf d img) = .ok (.ok m) ∧
      (ReadsAs m.fs ⟨decodeInode (m.fs.disk f), f, false⟩ chunks.flatten ↔
        chunks.flatten.length ≤ 1036 * 4096) := by
  obtain ⟨img, hclose, himg⟩ := closeSfs_ok hok
  have hmount := sfsDoMount_iff.mpr ⟨(himg.fsOk hok hd).1, rfl⟩
  refine ⟨img, _, hclose, hmount, ?_⟩
  constructor
  · intro hreads
    by_contra hlong
    obtain ⟨hsize, htype, hblocks⟩ := hf.decode himg hi (by decide)
    have htotal := length_flatten_le hf.chunk
    have hconst : maxBlocks * SFS_BLKSIZE = 1036 * 4096 := rfl
    obtain ⟨io, hio, -⟩ := hreads.2 (maxBlocks * SFS_BLKSIZE) 1 (fun _ => 0) (by omega)
    rw [read_behind] at hio
    · exact nomatch hio
    · show (decodeInode (img f)).type ≠ _
      rw [htype]
      decide
    · show _ < (decodeInode (img f)).size
      omega
    · show _ < (decodeInode (img f)).blocks
      rw [SFS_BLKSIZE] at htotal
      have hmax : maxBlocks = 1036 := rfl
      omega
  · exact fun hshort => reads_short hf himg hok hi hd hchunks hne hshort

/-- A new file, after all calls. -/
theorem newFile_trace (hle : s₁.ninos ≤ nblks) (hok₁ : Ok s₁ use)
    (hread : ∀ chunk ∈ chunks, chunk ≠ []) (hnew : s₁.newFile real chunks = .ok (f, s₂))
    (hafter : Trace Runs s₂ calls' s₃) :
    ∃ img m, s₃.closeSfs = .ok img ∧ sfsDoMount (deviceOf nblks img) = .ok (.ok m) ∧
      (ReadsAs m.fs ⟨decodeInode (m.fs.disk f), f, false⟩ chunks.flatten ↔
        chunks.flatten.length ≤ 1036 * 4096) := by
  obtain ⟨-, hi₂, hchunks, use₂, hext, hf₂⟩ := newFile_ok hok₁ hnew
  obtain ⟨hninos₃, hi₃, use₃, hok₃, hf₃⟩ := trace_file hafter hext.ok hi₂ hf₂ (by decide)
  refine hf₃.round_trip hok₃ hi₃ ?_ hchunks hread
  rw [hninos₃, hext.ninos]
  exact hle

/-- **A file of the host is read back**, size and bytes, if and only if the inode and one table have
numbers for its blocks. -/
theorem file_round_trip (hcreate : SfsFs.createSfs nblks img₀ = .ok s₀)
    (hbefore : Trace Runs s₀ calls s₁) (hread : ∀ chunk ∈ chunks, chunk ≠ [])
    (hnew : s₁.newFile real chunks = .ok (f, s₂)) (hafter : Trace Runs s₂ calls' s₃) :
    ∃ img m, s₃.closeSfs = .ok img ∧ sfsDoMount (deviceOf nblks img) = .ok (.ok m) ∧
      (ReadsAs m.fs ⟨decodeInode (m.fs.disk f), f, false⟩ chunks.flatten ↔
        chunks.flatten.length ≤ 1036 * 4096) := by
  obtain ⟨hle, -, use₀, hok₀, -⟩ := createSfs_ok hcreate
  obtain ⟨hninos₁, use₁, hok₁⟩ := trace_ok hbefore hok₀
  exact newFile_trace (hninos₁ ▸ hle) hok₁ hread hnew hafter

/-- A file with two bytes. -/
theorem file_round_trip_two : ∃ s₀ f s img m, SfsFs.createSfs 5 (fun _ _ => 0) = .ok s₀ ∧
    s₀.newFile 7 [[65, 66]] = .ok (f, s) ∧ s.closeSfs = .ok img ∧
    sfsDoMount (deviceOf 5 img) = .ok (.ok m) ∧
    ReadsAs m.fs ⟨decodeInode (m.fs.disk f), f, false⟩ [65, 66] := by
  have hcreate : ∃ s₀, SfsFs.createSfs 5 (fun _ _ => 0) = .ok s₀ ∧
      ∃ f s, s₀.newFile 7 [[65, 66]] = .ok (f, s) := ⟨_, rfl, _, _, rfl⟩
  obtain ⟨s₀, hs₀, f, s, hs⟩ := hcreate
  obtain ⟨img, m, hclose, hmount, hiff⟩ := file_round_trip hs₀ .nil (by decide) hs .nil
  exact ⟨s₀, f, s, img, m, hs₀, hs, hclose, hmount, hiff.mpr (by decide)⟩

/-! ### A file of 1037 blocks -/

/-- A directory with one file of 1037 blocks, in an image of 32 megabytes. -/
theorem file_not_read_back : ∃ s₀ s₁ s₂ s₃ f img m, SfsFs.createSfs 8192 (fun _ _ => 0) = .ok s₀ ∧
    Trace Runs s₀ [.addEntry SFS_BLKN_ROOT SFS_BLKN_ROOT [46],
      .addEntry SFS_BLKN_ROOT SFS_BLKN_ROOT [46, 46]] s₁ ∧
    s₁.newFile 7 (List.replicate 1037 (List.replicate 4096 65)) = .ok (f, s₂) ∧
    Trace Runs s₂ [.addEntry SFS_BLKN_ROOT f [97]] s₃ ∧ s₃.closeSfs = .ok img ∧
    sfsDoMount (deviceOf 8192 img) = .ok (.ok m) ∧
    ¬ ReadsAs m.fs ⟨decodeInode (m.fs.disk f), f, false⟩
      (List.replicate 1037 (List.replicate 4096 65)).flatten := by
  have hcreate : ∃ s₀, SfsFs.createSfs 8192 (fun _ _ => 0) = .ok s₀ ∧ s₀.nextIno = 3 ∧
      s₀.ninos = 8192 ∧ Shape (s₀.inode SFS_BLKN_ROOT) :=
    ⟨_, rfl, rfl, rfl, fun _ => rfl, fun h => absurd h (by decide), fun _ => rfl⟩
  obtain ⟨s₀, hs₀, hnext₀, hninos₀, hshape₀⟩ := hcreate
  -- the entries of the root directory
  obtain ⟨use₀, hr₀⟩ := rootDir_createSfs hs₀ hshape₀
  obtain ⟨a, useA, hrunA, hrA, hnextA, hninosA⟩ := hr₀.addEntry [46] hr₀.isInode (by decide)
    (by decide) (by omega) (by decide)
  obtain ⟨s₁, use₁, hrun₁, hr₁, hnext₁, hninos₁⟩ := hrA.addEntry [46, 46] hrA.isInode
    (by decide) (by decide) (by omega) (by decide)
  -- the file
  have hfull : ∀ chunk ∈ List.replicate 1037 (List.replicate 4096 (65 : UInt8)),
      chunk.length = SFS_BLKSIZE := by
    intro chunk hchunk
    rw [List.eq_of_mem_replicate hchunk, List.length_replicate]
    rfl
  have hlength : (List.replicate 1037 (List.replicate 4096 (65 : UInt8))).length = 1037 :=
    List.length_replicate
  have hread : ∀ chunk ∈ List.replicate 1037 (List.replicate 4096 (65 : UInt8)), chunk ≠ [] := by
    intro chunk hchunk hnil
    have hlen := hfull chunk hchunk
    rw [hnil] at hlen
    exact absurd hlen (by decide)
  have htotal : ¬ (List.replicate 1037 (List.replicate 4096 (65 : UInt8))).flatten.length ≤
      1036 * 4096 := by
    rw [List.flatten_replicate_replicate, List.length_replicate]
    omega
  generalize List.replicate 1037 (List.replicate 4096 (65 : UInt8)) = chunks at hfull hlength hread htotal
  have hmax : maxBlocks = 1036 := rfl
  obtain ⟨f, s₂, hnew, hnext₂, hninos₂⟩ := newFile_total 7 hfull (s := s₁) (by omega)
    (by omega)
  -- its entry
  obtain ⟨use₂, hi, hr₂⟩ := hr₁.newFile hnew
  obtain ⟨s₃, use₃, hrun₃, -, -, -⟩ := hr₂.addEntry [97] hi (by decide) (by decide)
    (by omega) (by decide)
  have hbefore : Trace Runs s₀ [.addEntry SFS_BLKN_ROOT SFS_BLKN_ROOT [46],
      .addEntry SFS_BLKN_ROOT SFS_BLKN_ROOT [46, 46]] s₁ := (Trace.nil.snoc hrunA).snoc hrun₁
  have hafter : Trace Runs s₂ [.addEntry SFS_BLKN_ROOT f [97]] s₃ := Trace.nil.snoc hrun₃
  obtain ⟨img, m, hclose, hmount, hiff⟩ := newFile_trace (show s₁.ninos ≤ 8192 by omega) hr₁.ok hread hnew
    hafter
  exact ⟨s₀, s₁, s₂, s₃, f, img, m, hs₀, hbefore, hnew, hafter, hclose, hmount,
    fun hreads => htotal (hiff.mp hreads)⟩

end Ucore.Mksfs
