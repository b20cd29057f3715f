import Ucore.Lib.Transition
import Ucore.Sfs.Saved

/-!
# Sync and remount

`sfs_sync` writes all that is flagged as dirty (`sfsSync_spec`), and `sfs_do_mount` reads a super block
and a freemap as they were written (`sfsDoMount_spec`).  **`sync_remount`**: after any run of
operations that succeed, `sfs_sync`, and a mount of the device, every inode is loaded as it was in
memory before.
-/

namespace Ucore.Sfs

open Memory Relation

variable {fs fs' : Fs} {m m' m₀ : Mount} {inodes : Set ℕ} {dev : Device} {n : ℕ}

/-! ### Writing everything -/

/-- The loop of `sfs_sync` over `inode_list`. -/
theorem fsync_all (h : MountOk inodes m) {l : List ℕ} (hl : ∀ j ∈ l, j ∈ m.inodeList) :
    ∃ m', l.foldlM sfsFsync m = .ok m' ∧ MountOk inodes m' ∧ Flushed inodes m m' ∧
      ∀ j ∈ l, (m'.inode j).dirty = false := by
  induction l generalizing m with
  | nil => exact ⟨m, rfl, h, Flushed.refl h, fun j hj => absurd hj List.not_mem_nil⟩
  | cons ino l ih =>
    obtain ⟨m₁, heq₁, h₁, hf₁, hclean₁⟩ := sfsFsync_spec h (hl ino List.mem_cons_self)
    have hl₁ : ∀ j ∈ l, j ∈ m₁.inodeList := by
      intro j hj
      rw [hf₁.inodeList]
      exact hl j (List.mem_cons_of_mem _ hj)
    obtain ⟨m₂, heq₂, h₂, hf₂, hclean₂⟩ := ih h₁ hl₁
    refine ⟨m₂, ?_, h₂, hf₁.trans hf₂, ?_⟩
    · rw [List.foldlM_cons, heq₁, ok_bind]
      exact heq₂
    · intro j hj
      rcases List.mem_cons.mp hj with rfl | hj
      · exact hf₂.clean j hclean₁
      · exact hclean₂ j hj

/-- The blocks of the device after `buf` has been written to `nblks` blocks from `blkno` on. -/
def writeBlocks (disk : ℕ → Mem) (buf : Mem) (blkno nblks : ℕ) : ℕ → Mem := fun c =>
  if blkno ≤ c ∧ c < blkno + nblks then
    memcpy (disk c) 0 (fun o => buf ((c - blkno) * SFS_BLKSIZE + o)) SFS_BLKSIZE
  else disk c

/-- `sfs_wblock` of several blocks. -/
theorem sfsWblocks_spec {buf : Mem} {blkno nblks : ℕ}
    (h : ∀ i < nblks, blkno + i ≠ 0 ∧ blkno + i < fs.blocks) :
    sfsWblocks fs buf blkno nblks = .ok { fs with disk := writeBlocks fs.disk buf blkno nblks } := by
  induction nblks generalizing fs buf blkno with
  | zero =>
    have hdisk : writeBlocks fs.disk buf blkno 0 = fs.disk := by
      funext c
      rw [writeBlocks, if_neg (by omega)]
    rw [hdisk]
    rfl
  | succ nblks ih =>
    obtain ⟨h₀, h₁⟩ := h 0 (Nat.succ_pos _)
    rw [Nat.add_zero] at h₀ h₁
    have hwrite : sfsWblock fs buf blkno =
        .ok (fs.setDisk blkno (memcpy (fs.disk blkno) 0 buf SFS_BLKSIZE)) := by
      rw [sfsWblock, checkBlock_spec h₀ h₁, ok_bind]
      rfl
    have hrest : ∀ i < nblks, blkno + 1 + i ≠ 0 ∧
        blkno + 1 + i < (fs.setDisk blkno (memcpy (fs.disk blkno) 0 buf SFS_BLKSIZE)).blocks := by
      intro i hi
      rw [Nat.add_assoc, Nat.add_comm 1 i]
      exact h (i + 1) (Nat.succ_lt_succ hi)
    have hdisk : writeBlocks (fs.setDisk blkno (memcpy (fs.disk blkno) 0 buf SFS_BLKSIZE)).disk
        (fun i => buf (SFS_BLKSIZE + i)) (blkno + 1) nblks =
        writeBlocks fs.disk buf blkno (nblks + 1) := by
      funext c
      rw [writeBlocks, writeBlocks]
      by_cases hc : c = blkno
      · rw [hc, if_neg (by omega), if_pos (by omega), Nat.sub_self, Nat.zero_mul]
        simp only [Nat.zero_add]
        exact Function.update_self _ _ _
      · have hold : (fs.setDisk blkno (memcpy (fs.disk blkno) 0 buf SFS_BLKSIZE)).disk c =
            fs.disk c := Function.update_of_ne hc _ _
        rw [hold]
        by_cases hin : blkno + 1 ≤ c ∧ c < blkno + 1 + nblks
        · have hpos : (c - blkno) * SFS_BLKSIZE = SFS_BLKSIZE + (c - (blkno + 1)) * SFS_BLKSIZE := by
            rw [SFS_BLKSIZE]
            omega
          rw [if_pos hin, if_pos (by omega), hpos]
          simp only [Nat.add_assoc]
        · rw [if_neg hin, if_neg (by omega)]
    rw [sfsWblocks, hwrite, ok_bind, ih hrest, hdisk]
    rfl

/-- The counter of the super block fits its field. -/
theorem FsOk.unused_lt (h : FsOk fs) : fs.unusedBlocks < 2 ^ 32 := by
  have hsub : (Finset.range fs.freemap.nbits).filter (fun i => fs.freemap.bit i = true) ⊆
      Finset.range fs.blocks := by
    intro b hb
    obtain ⟨hlt, hbit⟩ := Finset.mem_filter.mp hb
    exact Finset.mem_range.mpr (h.valid b (Finset.mem_range.mp hlt) hbit).2
  have hle := Finset.card_le_card hsub
  rw [Finset.card_range] at hle
  have hcount := h.unused
  have hsmall := h.small
  rw [Bitmap.count] at hcount
  omega

/-- The super block and the freemap have been written. -/
structure WritesSuper (m : Mount) (disk : ℕ → Mem) : Prop where
  super : StoresSuper (disk SFS_BLKN_SUPER) m.magic m.fs.blocks m.fs.unusedBlocks
  freemap : StoresFreemap disk m.fs.freemap
  others : ∀ c, c ≠ 0 → ¬ IsFreemapBlock m.fs c → disk c = m.fs.disk c

/-- **`sfs_sync_super` and `sfs_sync_freemap`.** -/
theorem sync_super_freemap (h : MountOk inodes m) : ∃ fs₁ disk, sfsSyncSuper m = .ok fs₁ ∧
    sfsSyncFreemap fs₁ = .ok { m.fs with disk := disk } ∧ WritesSuper m disk := by
  have hs := h.saved
  have hok := h.sound.ok
  have hpos : SFS_BLKN_SUPER < m.fs.blocks := by
    by_contra hzero
    refine hs.mapped ?_
    rw [hs.nbits, Nat.eq_zero_of_not_pos hzero]
    rfl
  have hin : ∀ i < sfsFreemapBlocks m.fs.blocks,
      SFS_BLKN_FREEMAP + i ≠ 0 ∧ SFS_BLKN_FREEMAP + i < m.fs.blocks := by
    intro i hi
    have hblock : IsFreemapBlock m.fs (SFS_BLKN_FREEMAP + i) :=
      ⟨Nat.le_add_right _ _, Nat.add_lt_add_left hi _⟩
    have hin := h.sound.inUse _ (Or.inr hblock)
    exact ⟨hin.1, hin.2.1⟩
  let super := encodeSuper m.magic m.fs.blocks m.fs.unusedBlocks m.info
  let mem := memcpy (m.fs.disk SFS_BLKN_SUPER) 0 (memcpy (fun _ => 0) 0 super sizeofSuper) SFS_BLKSIZE
  let fs₁ := m.fs.setDisk SFS_BLKN_SUPER mem
  let data := bitmapGetdata m.fs.freemap
  let disk := writeBlocks fs₁.disk data SFS_BLKN_FREEMAP (sfsFreemapBlocks m.fs.blocks)
  have hold : ∀ c, ¬ IsFreemapBlock m.fs c → disk c = fs₁.disk c := fun c hc => if_neg hc
  have hnew : ∀ c, IsFreemapBlock m.fs c → disk c = memcpy (fs₁.disk c) 0
      (fun o => data ((c - SFS_BLKN_FREEMAP) * SFS_BLKSIZE + o)) SFS_BLKSIZE := fun c hc => if_pos hc
  refine ⟨fs₁, disk, ?_, ?_, ?_, ?_, ?_⟩
  · rw [sfsSyncSuper, ensure_pos hpos, ok_bind]
  · rw [sfsSyncFreemap]
    exact sfsWblocks_spec hin
  · rw [hold SFS_BLKN_SUPER fun hc => absurd hc.1 (by decide)]
    have hself : fs₁.disk SFS_BLKN_SUPER = mem := by
      show Function.update m.fs.disk SFS_BLKN_SUPER mem SFS_BLKN_SUPER = mem
      exact Function.update_self _ _ _
    have hmagic : m.magic < 2 ^ 32 := by
      rw [hs.magic]
      decide
    rw [hself]
    refine stores_encodeSuper m.info hmagic hok.small hok.unused_lt ?_
    intro i hi
    have hlt : i < 0 + SFS_BLKSIZE := hi.trans (by decide)
    have hlt' : i < 0 + sizeofSuper := hi.trans (by decide)
    show memcpy _ _ _ _ _ = _
    rw [memcpy_of_mem (Nat.zero_le _) hlt, Nat.sub_zero, memcpy_of_mem (Nat.zero_le _) hlt',
      Nat.sub_zero]
  · intro ix hix
    rw [hnew _ (hs.freemapBlock hok hix)]
    refine read32_eq (m.fs.freemap.map ix).isLt ?_
    intro k hk
    have hpos : (SFS_BLKN_FREEMAP + ix / SFS_BLK_NENTRY - SFS_BLKN_FREEMAP) * SFS_BLKSIZE +
        (4 * (ix % SFS_BLK_NENTRY) + k) = 4 * ix + k := by
      rw [SFS_BLK_NENTRY, SFS_BLKSIZE]
      omega
    have hlt : 4 * (ix % SFS_BLK_NENTRY) + k < 0 + SFS_BLKSIZE := by
      rw [SFS_BLK_NENTRY, SFS_BLKSIZE]
      omega
    rw [memcpy_of_mem (Nat.zero_le _) hlt, Nat.sub_zero, hpos]
    exact bitmapGetdata_word _ _ hk
  · intro c hc hmap
    rw [hold c hmap]
    exact Function.update_of_ne hc _ _

/-- Everything has been written. -/
structure Synced (inodes : Set ℕ) (m m' : Mount) : Prop where
  blocks : m'.fs.blocks = m.fs.blocks
  unused : m'.fs.unusedBlocks = m.fs.unusedBlocks
  freemap : m'.fs.freemap = m.fs.freemap
  same : ∀ j ∈ inodes, SameFile m.fs m'.fs (m.live j)
  live : ∀ j ∈ inodes, m'.live j = m.live j
  clean : ∀ j ∈ m'.inodeList, (m'.inode j).dirty = false
  superClean : m'.fs.superDirty = false

/-- **`sfs_sync`.** -/
theorem sfsSync_spec (h : MountOk inodes m) :
    ∃ m', sfsSync m = .ok m' ∧ MountOk inodes m' ∧ Synced inodes m m' := by
  obtain ⟨m₁, heq, h₁, hf, hclean⟩ := fsync_all h fun j hj => hj
  rw [sfsSync, heq, ok_bind]
  rw [← hf.inodeList] at hclean
  have hfs := hf.fs
  generalize m₁.fs.disk = disk₁ at hfs
  have hblocks : m₁.fs.blocks = m.fs.blocks := by rw [hfs]
  have hunused : m₁.fs.unusedBlocks = m.fs.unusedBlocks := by rw [hfs]
  have hfreemap : m₁.fs.freemap = m.fs.freemap := by rw [hfs]
  by_cases hdirty : m₁.fs.superDirty = true
  · rw [if_pos hdirty]
    obtain ⟨fs₁, disk, heq₁, heq₂, hw⟩ := sync_super_freemap h₁
    let m' : Mount := { m₁ with fs := { m₁.fs with disk := disk, superDirty := false } }
    rw [heq₁, ok_bind, heq₂, ok_bind]
    have hok : FsOk m'.fs := ⟨h₁.sound.ok.words, h₁.sound.ok.covers, h₁.sound.ok.small,
      h₁.sound.ok.valid, h₁.sound.ok.unused⟩
    have hinode : ∀ j ∈ inodes, disk j = m₁.fs.disk j := fun j hj =>
      hw.others j (h₁.sound.inUse j (Or.inl hj)).1 (h₁.sound.disjoint j hj)
    have hs := h₁.saved
    have hlive : ∀ j ∈ inodes, m'.live j = m₁.live j := by
      intro j hj
      by_cases hmem : j ∈ m₁.inodeList
      · have hmem' : j ∈ m'.inodeList := hmem
        rw [Mount.live_of_mem hmem, Mount.live_of_mem hmem']
      · have hmem' : j ∉ m'.inodeList := hmem
        rw [Mount.live_of_not_mem hmem, Mount.live_of_not_mem hmem', ← hinode j hj]
    obtain ⟨hsound, hsame⟩ := h₁.sound.of_disk hok rfl (fun _ _ => rfl) (by
      intro j hj c hc
      exact hw.others c hc.1 fun hmap => h₁.sound.notOwned c (Or.inr hmap) j hj hc)
    refine ⟨m', rfl, ⟨hsound.congr fun j hj => SameInode.of_eq (hlive j hj), ?_⟩, ?_⟩
    · refine ⟨hs.magic, hs.nbits, hs.mapped, hs.nodup, hs.listed, hs.number, hs.size, hs.links, ?_, ?_,
        ?_, fun _ => ⟨hw.super, hw.freemap⟩⟩
      · intro j hj
        rw [hlive j hj]
        exact hs.type j hj
      · intro j hj hnot
        show decodeLinks (disk j) ≠ 0
        rw [hinode j hj]
        exact hs.onDisk j hj hnot
      · intro j hj hclean
        show StoresInode (disk j) _ _
        rw [hinode j (hs.listed j hj)]
        exact hs.inode j hj hclean
    · refine ⟨hblocks, hunused, hfreemap, ?_, ?_, hclean, rfl⟩
      · intro j hj
        refine (hf.same j hj).trans ?_
        rw [← hf.live]
        exact hsame j hj
      · intro j hj
        rw [hlive j hj, hf.live]
  · rw [if_neg hdirty]
    exact ⟨m₁, rfl, h₁, hblocks, hunused, hfreemap, hf.same, fun j _ => congrFun hf.live j, hclean,
      Bool.eq_false_of_not_eq_true hdirty⟩

/-! ### Reading it again -/

theorem initFreemapLoop_spec (disk : ℕ → Mem) {data : Mem} {pos blkno nblks i : ℕ} :
    initFreemapLoop disk data pos blkno nblks i =
      if pos ≤ i ∧ i < pos + nblks * SFS_BLKSIZE then
        disk (blkno + (i - pos) / SFS_BLKSIZE) ((i - pos) % SFS_BLKSIZE)
      else data i := by
  induction nblks generalizing data pos blkno with
  | zero =>
    rw [if_neg (by omega)]
    rfl
  | succ nblks ih =>
    rw [initFreemapLoop, ih]
    rw [SFS_BLKSIZE] at *
    by_cases hfirst : pos ≤ i ∧ i < pos + 4096
    · have hdiv : (i - pos) / 4096 = 0 := by omega
      have hmod : (i - pos) % 4096 = i - pos := by omega
      rw [if_neg (by omega), if_pos (by omega), hdiv, hmod, memcpy_of_mem hfirst.1 hfirst.2]
      rfl
    · rw [memcpy_of_not hfirst]
      by_cases hin : pos + 4096 ≤ i ∧ i < pos + 4096 + nblks * 4096
      · have hdiv : blkno + 1 + (i - (pos + 4096)) / 4096 = blkno + (i - pos) / 4096 := by omega
        have hmod : (i - (pos + 4096)) % 4096 = (i - pos) % 4096 := by omega
        rw [if_pos hin, if_pos (by omega), hdiv, hmod]
      · rw [if_neg hin, if_neg (by omega)]

theorem countUnused_spec {freemap : Bitmap} (h : n ≤ freemap.nbits) :
    countUnused freemap n =
      .ok ((Finset.range n).filter fun i => freemap.bit i = true).card := by
  induction n with
  | zero => rfl
  | succ n ih =>
    rw [countUnused, ih (by omega), ok_bind, bitmapTest_spec (by omega), ok_bind,
      Finset.range_add_one, Finset.filter_insert]
    cases freemap.bit n with
    | false => rfl
    | true =>
      rw [if_pos rfl, if_pos rfl, Finset.card_insert_of_notMem]
      simp

/-- The freemap that `sfs_do_mount` reads. -/
def mountedFreemap (dev : Device) : Bitmap :=
  let blocks := read32 (dev.disk SFS_BLKN_SUPER) 4
  let nbits := sfsFreemapBits blocks
  let empty : Bitmap := ⟨nbits, nbits / WORD_BITS, fun _ => BitVec.allOnes 32⟩
  let data := initFreemapLoop dev.disk (bitmapGetdata empty) 0 SFS_BLKN_FREEMAP (sfsFreemapBlocks blocks)
  { empty with map := fun ix => BitVec.ofNat 32 (read32 data (4 * ix)) }

/-- The result of `sfs_do_mount`. -/
def mounted (dev : Device) : Mount :=
  let super := dev.disk SFS_BLKN_SUPER
  ⟨read32 super 0, Function.update (fun i => super (12 + i)) SFS_MAX_INFO_LEN 0,
    ⟨read32 super 4, read32 super 8, mountedFreemap dev, false, dev.disk⟩, [], fun _ => noInode,
    fun _ => 0⟩

/-- What `sfs_do_mount` checks. -/
structure Mountable (dev : Device) : Prop where
  blocksize : dev.dBlocksize = SFS_BLKSIZE
  magic : read32 (dev.disk SFS_BLKN_SUPER) 0 = SFS_MAGIC
  blocks : read32 (dev.disk SFS_BLKN_SUPER) 4 ≤ dev.dBlocks
  nbits : sfsFreemapBits (read32 (dev.disk SFS_BLKN_SUPER) 4) ≠ 0
  unused : (mountedFreemap dev).count = read32 (dev.disk SFS_BLKN_SUPER) 8

/-- The number of bits does not wrap around. -/
theorem sfsFreemapBits_eq {blocks : ℕ} (hsmall : blocks < 2 ^ 32) (h : sfsFreemapBits blocks ≠ 0) :
    sfsFreemapBits blocks = sfsFreemapBlocks blocks * SFS_BLKBITS := by
  rw [sfsFreemapBits] at *
  rw [sfsFreemapBlocks]
  rw [SFS_BLKBITS] at *
  omega

/-- The freemap is read into the new bitmap. -/
theorem sfsInitFreemap_spec (h : sfsFreemapBits (read32 (dev.disk SFS_BLKN_SUPER) 4) ≠ 0) :
    (do
      let freemap ← bitmapCreate (sfsFreemapBits (read32 (dev.disk SFS_BLKN_SUPER) 4))
      sfsInitFreemap dev freemap SFS_BLKN_FREEMAP
        (sfsFreemapBlocks (read32 (dev.disk SFS_BLKN_SUPER) 4))) = .ok (mountedFreemap dev) := by
  have heq := sfsFreemapBits_eq (read32_lt _ _) h
  have hlen : sfsFreemapBits (read32 (dev.disk SFS_BLKN_SUPER) 4) / WORD_BITS * 4 =
      sfsFreemapBlocks (read32 (dev.disk SFS_BLKN_SUPER) 4) * SFS_BLKSIZE := by
    rw [heq, SFS_BLKBITS, WORD_BITS, SFS_BLKSIZE]
    omega
  rw [bitmapCreate, ensure_pos h, ok_bind, ok_bind, sfsInitFreemap, ensure_pos hlen, ok_bind]
  rfl

/-- **`sfs_do_mount`.** -/
theorem sfsDoMount_iff : sfsDoMount dev = .ok (.ok m) ↔ Mountable dev ∧ m = mounted dev := by
  have hcount : countUnused (mountedFreemap dev) (sfsFreemapBits (read32 (dev.disk SFS_BLKN_SUPER) 4)) =
      .ok (mountedFreemap dev).count := countUnused_spec (Nat.le_refl _)
  rw [sfsDoMount]
  by_cases hsize : dev.dBlocksize ≠ SFS_BLKSIZE
  · rw [if_pos hsize]
    exact iff_of_false (fun h => nomatch h) fun h => hsize h.1.blocksize
  rw [if_neg hsize]
  dsimp only
  by_cases hmagic : read32 (dev.disk SFS_BLKN_SUPER) 0 ≠ SFS_MAGIC
  · rw [if_pos hmagic]
    exact iff_of_false (fun h => nomatch h) fun h => hmagic h.1.magic
  rw [if_neg hmagic]
  by_cases hblocks : read32 (dev.disk SFS_BLKN_SUPER) 4 > dev.dBlocks
  · rw [if_pos hblocks]
    exact iff_of_false (fun h => nomatch h) fun h => absurd h.1.blocks (Nat.not_le.mpr hblocks)
  rw [if_neg hblocks]
  by_cases hnbits : sfsFreemapBits (read32 (dev.disk SFS_BLKN_SUPER) 4) ≠ 0
  · rw [← bind_assoc, sfsInitFreemap_spec hnbits, ok_bind, hcount, ok_bind]
    by_cases hunused : (mountedFreemap dev).count = read32 (dev.disk SFS_BLKN_SUPER) 8
    · rw [ensure_pos hunused, ok_bind]
      constructor
      · intro h
        injection h with h
        injection h with h
        exact ⟨⟨not_not.mp hsize, not_not.mp hmagic, Nat.not_lt.mp hblocks, hnbits, hunused⟩, h.symm⟩
      · rintro ⟨-, rfl⟩
        rfl
    · rw [ensure_neg hunused, error_bind]
      exact iff_of_false (fun h => nomatch h) fun h => hunused h.1.unused
  · rw [bitmapCreate, ensure_neg hnbits, error_bind, error_bind]
    exact iff_of_false (fun h => nomatch h) fun h => hnbits h.1.nbits

/-- The words of the freemap as they are on the device. -/
theorem mountedFreemap_map (h : sfsFreemapBits (read32 (dev.disk SFS_BLKN_SUPER) 4) ≠ 0) {ix : ℕ}
    (hix : ix < (mountedFreemap dev).nwords) : (mountedFreemap dev).map ix = BitVec.ofNat 32
      (read32 (dev.disk (SFS_BLKN_FREEMAP + ix / SFS_BLK_NENTRY)) (4 * (ix % SFS_BLK_NENTRY))) := by
  have heq := sfsFreemapBits_eq (read32_lt _ _) h
  have hlt : ix < sfsFreemapBits (read32 (dev.disk SFS_BLKN_SUPER) 4) / WORD_BITS := hix
  refine congrArg (BitVec.ofNat 32) (read32_of_bytes ?_)
  intro k hk
  rw [initFreemapLoop_spec, if_pos]
  · rw [SFS_BLKSIZE, SFS_BLK_NENTRY, Nat.sub_zero]
    congr 2
    · omega
    · omega
  · rw [heq, SFS_BLKBITS, WORD_BITS] at hlt
    rw [SFS_BLKSIZE]
    omega

/-- The inodes of an image. -/
structure ImageOk (inodes : Set ℕ) (dev : Device) : Prop where
  sound : Sound inodes (mounted dev).fs fun j => decodeInode (dev.disk j)
  links : ∀ j ∈ inodes, decodeLinks (dev.disk j) ≠ 0
  type : ∀ j ∈ inodes, (decodeInode (dev.disk j)).type = SFS_TYPE_DIR ∨
    (decodeInode (dev.disk j)).type = SFS_TYPE_FILE

theorem mountOk_mounted (h : Mountable dev) (hi : ImageOk inodes dev) : MountOk inodes (mounted dev) := by
  refine ⟨hi.sound, h.magic, rfl, h.nbits, List.nodup_nil, ?_, ?_, ?_, ?_, hi.type, ?_, ?_, ?_⟩
  · exact fun j hj => absurd hj List.not_mem_nil
  · exact fun j hj => absurd hj List.not_mem_nil
  · exact fun j hj => absurd hj List.not_mem_nil
  · exact fun j hj => absurd hj List.not_mem_nil
  · exact fun j hj _ => hi.links j hj
  · exact fun j hj => absurd hj List.not_mem_nil
  · intro _
    refine ⟨⟨rfl, rfl, rfl⟩, ?_⟩
    intro ix hix
    have hmap := mountedFreemap_map h.nbits hix
    show _ = ((mountedFreemap dev).map ix).toNat
    rw [hmap, BitVec.toNat_ofNat, Nat.mod_eq_of_lt (read32_lt _ _)]
    rfl

/-! ### Runs -/

/-- **One operation.** -/
theorem MountOk.step (h : MountOk inodes m) (hstep : Mount.Step inodes m m') :
    MountOk inodes m' ∧ m'.fs.blocks = m.fs.blocks := by
  obtain ⟨op, henabled, hrun⟩ := hstep
  cases op with
  | load ino =>
    obtain ⟨m₁, heq, -, hfs, -, h₁⟩ := sfsLoadInode_spec h henabled
    rw [MountOp.run, heq] at hrun
    cases hrun
    exact ⟨h₁, congrArg Fs.blocks hfs⟩
  | call ino c =>
    obtain ⟨hmem, hty⟩ := henabled
    rw [MountOp.run] at hrun
    cases hcall : c.run m.fs (m.inode ino) with
    | error p =>
      rw [hcall] at hrun
      cases hrun
    | ok r =>
      obtain ⟨ret, fs', sin'⟩ := r
      rw [hcall] at hrun
      injection hrun with hrun
      injection hrun with hret hm
      rw [hret] at hcall
      rw [← hm]
      have hlive := Mount.live_of_mem hmem
      have hreg := h.sound.regularFile (h.saved.listed ino hmem) (by rw [hlive]; exact hty)
      rw [hlive] at hreg
      exact ⟨h.call hmem hty hcall, (NodeCall.marked hreg hcall).priv.blocks⟩
  | fsync ino =>
    obtain ⟨m₁, heq, h₁, hf, -⟩ := sfsFsync_spec h henabled
    rw [MountOp.run, heq] at hrun
    cases hrun
    refine ⟨h₁, ?_⟩
    rw [hf.fs]
  | reclaim ino =>
    obtain ⟨m₁, heq, h₁, hblocks⟩ := sfsReclaim_spec h henabled
    rw [MountOp.run, heq] at hrun
    cases hrun
    exact ⟨h₁, hblocks⟩
  | sync =>
    obtain ⟨m₁, heq, h₁, hs⟩ := sfsSync_spec h
    rw [MountOp.run, heq] at hrun
    cases hrun
    exact ⟨h₁, hs.blocks⟩

/-- In every state of a run the files are in order, and what is not on the device is flagged. -/
theorem MountOk.run (h : MountOk inodes m₀) (hrun : ReflTransGen (Mount.Step inodes) m₀ m) :
    MountOk inodes m ∧ m.fs.blocks = m₀.fs.blocks := by
  refine Transition.invariant
    (P := fun m : Mount => MountOk inodes m ∧ m.fs.blocks = m₀.fs.blocks) ?_ hrun ⟨h, rfl⟩
  rintro a b ⟨ha, hblocks⟩ hab
  obtain ⟨hb, hblocks'⟩ := ha.step hab
  exact ⟨hb, hblocks'.trans hblocks⟩

/-- The device after everything has been written, mounted again. -/
theorem MountOk.remount (h : MountOk inodes m)
    (hclean : ∀ j ∈ m.inodeList, (m.inode j).dirty = false) (hsuper : m.fs.superDirty = false)
    (hdisk : dev.disk = m.fs.disk) (hsize : dev.dBlocksize = SFS_BLKSIZE)
    (hblocks : m.fs.blocks ≤ dev.dBlocks) :
    Mountable dev ∧ ImageOk inodes dev ∧ (mounted dev).fs.unusedBlocks = m.fs.unusedBlocks ∧
      (∀ b < m.fs.freemap.nbits, (mounted dev).fs.free b = m.fs.free b) ∧
      ∀ j ∈ inodes, SameFile m.fs (mounted dev).fs (m.live j) ∧
        SameInode (m.live j) (decodeInode (dev.disk j)) := by
  have hs := h.saved
  have hok := h.sound.ok
  obtain ⟨⟨hmagic, hnblocks, hunused⟩, hstored⟩ := hs.super hsuper
  rw [← hdisk] at hmagic hnblocks hunused hstored
  have hnbits : (mountedFreemap dev).nbits = m.fs.freemap.nbits := by
    rw [hs.nbits, ← hnblocks]
    rfl
  have hnwords : (mountedFreemap dev).nwords = m.fs.freemap.nwords := by
    have hwords := hok.words
    have heq : (mountedFreemap dev).nwords = (mountedFreemap dev).nbits / WORD_BITS := rfl
    rw [heq, hnbits, hwords]
    exact Nat.mul_div_cancel _ (by decide)
  have hmapped : sfsFreemapBits (read32 (dev.disk SFS_BLKN_SUPER) 4) ≠ 0 := by
    rw [hnblocks, ← hs.nbits]
    exact hs.mapped
  have hmap : ∀ ix < m.fs.freemap.nwords, (mountedFreemap dev).map ix = m.fs.freemap.map ix := by
    intro ix hix
    rw [mountedFreemap_map hmapped (hnwords ▸ hix), hstored ix hix]
    exact BitVec.eq_of_toNat_eq (by rw [BitVec.toNat_ofNat, Nat.mod_eq_of_lt (BitVec.isLt _)])
  have hfree : ∀ b < m.fs.freemap.nbits, (mounted dev).fs.free b = m.fs.free b := by
    intro b hb
    have hix : b / WORD_BITS < m.fs.freemap.nwords := by
      rw [hok.words] at hb
      exact (Nat.div_lt_iff_lt_mul (by decide)).mpr hb
    show ((mountedFreemap dev).map (b / WORD_BITS)).getLsbD _ = _
    rw [hmap _ hix]
    rfl
  have hcount : (mountedFreemap dev).count = m.fs.freemap.count := by
    rw [Bitmap.count, Bitmap.count, hnbits]
    refine congrArg Finset.card (Finset.filter_congr ?_)
    intro b hb
    have hbit : (mountedFreemap dev).bit b = m.fs.freemap.bit b := hfree b (Finset.mem_range.mp hb)
    rw [hbit]
  have hunused' : (mounted dev).fs.unusedBlocks = m.fs.unusedBlocks := hunused
  have hblocks' : (mounted dev).fs.blocks = m.fs.blocks := hnblocks
  have hok' : FsOk (mounted dev).fs := by
    refine ⟨?_, ?_, ?_, ?_, ?_⟩
    · show (mountedFreemap dev).nbits = (mountedFreemap dev).nwords * WORD_BITS
      rw [hnbits, hnwords, hok.words]
    · show (mounted dev).fs.blocks ≤ (mountedFreemap dev).nbits
      rw [hblocks', hnbits]
      exact hok.covers
    · rw [hblocks']
      exact hok.small
    · intro b hb hset
      have hlt : b < m.fs.freemap.nbits := hnbits ▸ hb
      rw [hfree b hlt] at hset
      rw [hblocks']
      exact hok.valid b hlt hset
    · show (mounted dev).fs.unusedBlocks = (mountedFreemap dev).count
      rw [hunused', hcount, hok.unused]
  obtain ⟨hsound, hsame⟩ := h.sound.of_disk hok' hblocks'
    (fun c hc => hfree c (hc.trans_le hok.covers)) (fun j hj c hc => congrFun hdisk c)
  have hstores : ∀ j ∈ inodes, SameInode (m.live j) (decodeInode (dev.disk j)) ∧
      decodeLinks (dev.disk j) ≠ 0 := by
    intro j hj
    rw [hdisk]
    by_cases hmem : j ∈ m.inodeList
    · have hst := hs.inode j hmem (hclean j hmem)
      rw [Mount.live_of_mem hmem, hst.links]
      exact ⟨hst.same, (hs.links j hmem).1⟩
    · rw [Mount.live_of_not_mem hmem]
      exact ⟨SameInode.of_eq rfl, hs.onDisk j hj hmem⟩
  refine ⟨⟨hsize, hmagic.trans hs.magic, ?_, hmapped, ?_⟩, ⟨?_, ?_, ?_⟩, hunused', hfree, ?_⟩
  · rw [hnblocks]
    exact hblocks
  · rw [hcount, hunused, hok.unused]
  · exact hsound.congr fun j hj => (hstores j hj).1
  · exact fun j hj => (hstores j hj).2
  · intro j hj
    rw [(hstores j hj).1.type]
    exact hs.type j hj
  · exact fun j hj => ⟨hsame j hj, (hstores j hj).1⟩

/-- **Sync and remount.**  After a run of operations that succeed, `sfs_sync` and a mount of the device
succeed, and every inode is loaded with the fields, the block map and the bytes that it had before. -/
theorem sync_remount (hmount : sfsDoMount dev = .ok (.ok m₀)) (himage : ImageOk inodes dev)
    (hrun : ReflTransGen (Mount.Step inodes) m₀ m) :
    ∃ m₁ m₂, sfsSync m = .ok m₁ ∧ sfsDoMount { dev with disk := m₁.fs.disk } = .ok (.ok m₂) ∧
      m₂.fs.unusedBlocks = m.fs.unusedBlocks ∧
      (∀ b < m.fs.blocks, m₂.fs.free b = m.fs.free b) ∧
      ∀ ino ∈ inodes, ∃ m₃, sfsLoadInode m₂ ino = .ok m₃ ∧
        (m₃.inode ino).din.type = (m.live ino).type ∧
        (m₃.inode ino).din.size = (m.live ino).size ∧
        (m₃.inode ino).din.blocks = (m.live ino).blocks ∧
        (∀ k < 1036, blockAt m₃.fs (m₃.inode ino).din k = blockAt m.fs (m.live ino) k) ∧
        ∀ y, y / 4096 < 1036 → byteAt m₃.fs (m₃.inode ino).din y = byteAt m.fs (m.live ino) y := by
  obtain ⟨hmountable, rfl⟩ := sfsDoMount_iff.mp hmount
  obtain ⟨h, hnblocks⟩ := (mountOk_mounted hmountable himage).run hrun
  obtain ⟨m₁, hsync, h₁, hs⟩ := sfsSync_spec h
  have hblocks : m₁.fs.blocks ≤ dev.dBlocks := by
    rw [hs.blocks, hnblocks]
    exact hmountable.blocks
  let dev₁ : Device := { dev with disk := m₁.fs.disk }
  obtain ⟨hmountable₁, himage₁, hunused, hfree, hfiles⟩ := h₁.remount hs.clean
    hs.superClean (show dev₁.disk = m₁.fs.disk from rfl) hmountable.blocksize hblocks
  have h₂ := mountOk_mounted hmountable₁ himage₁
  refine ⟨m₁, mounted dev₁, hsync, sfsDoMount_iff.mpr ⟨hmountable₁, rfl⟩, hunused.trans hs.unused, ?_, ?_⟩
  · intro b hb
    rw [hfree b]
    · rw [Fs.free, Fs.free, hs.freemap]
    · rw [hs.freemap]
      exact hb.trans_le h.sound.ok.covers
  · intro ino hino
    obtain ⟨m₃, hload, hmem, hfs, hlive, -⟩ := sfsLoadInode_spec h₂ hino
    obtain ⟨hsame, hdin⟩ := hfiles ino hino
    have hnew : (m₃.inode ino).din = decodeInode (dev₁.disk ino) := by
      rw [← Mount.live_of_mem hmem, hlive]
      exact Mount.live_of_not_mem List.not_mem_nil
    have hold := hs.live ino hino
    have hfile := hs.same ino hino
    rw [hold] at hsame hdin
    refine ⟨m₃, hload, ?_, ?_, ?_, ?_, ?_⟩
    · rw [hnew, hdin.type]
    · rw [hnew, hdin.size]
    · rw [hnew, hdin.blocks]
    · intro k _
      rw [hnew, hfs, hdin.blockAt, hsame.map, hfile.map]
    · intro y hy
      rw [hnew, hfs, hdin.byteAt, hsame.bytes y hy, hfile.bytes y hy]

/-- A device of four blocks: the super block, the inode of an empty file, the freemap, and a free
block. -/
def lastBlockDevice : Device where
  dBlocks := 4
  dBlocksize := 4096
  disk b :=
    if b = 0 then encodeSuper SFS_MAGIC 4 1 fun _ => 0
    else if b = 1 then memcpy (fun _ => 0) 0 (encodeInode emptyFile.din 1) sizeofDiskInode
    else fun i => if b = 2 ∧ i = 0 then 0x08 else 0

theorem storesSuper_lastBlockDevice : StoresSuper (lastBlockDevice.disk SFS_BLKN_SUPER) SFS_MAGIC 4 1 :=
  stores_encodeSuper (fun _ => 0) (by decide) (by decide) (by decide) fun _ _ => rfl

theorem storesInode_lastBlockDevice : StoresInode (lastBlockDevice.disk 1) emptyFile.din 1 :=
  stores_encodeInode ⟨by decide, by decide, by decide, by decide, fun _ _ => Nat.two_pow_pos 32,
    by decide⟩

theorem freemap_lastBlockDevice : ∀ b < 32768,
    (mountedFreemap lastBlockDevice).bit b = decide (b = 3) := by
  have hblocks := storesSuper_lastBlockDevice.blocks
  have hnbits : sfsFreemapBits (read32 (lastBlockDevice.disk SFS_BLKN_SUPER) 4) = 32768 := by
    rw [hblocks]
    rfl
  intro b hb
  have hix : b / WORD_BITS < (mountedFreemap lastBlockDevice).nwords := by
    show b / WORD_BITS < sfsFreemapBits (read32 (lastBlockDevice.disk SFS_BLKN_SUPER) 4) / WORD_BITS
    rw [hnbits, WORD_BITS]
    omega
  have hblock : b / WORD_BITS / SFS_BLK_NENTRY = 0 := by
    rw [WORD_BITS, SFS_BLK_NENTRY]
    omega
  have hdisk : lastBlockDevice.disk SFS_BLKN_FREEMAP = fun i => if i = 0 then 0x08 else 0 := by
    funext i
    exact if_congr (and_iff_right rfl) rfl rfl
  have hmap := mountedFreemap_map (by rw [hnbits]; decide) hix
  rw [hblock, Nat.add_zero, hdisk] at hmap
  rw [Bitmap.bit, hmap]
  by_cases hword : b < 32
  · have hall : ∀ b < 32, (BitVec.ofNat 32 (read32 (fun i => if i = 0 then 0x08 else 0)
        (4 * (b / WORD_BITS % SFS_BLK_NENTRY)))).getLsbD (b % WORD_BITS) = decide (b = 3) := by
      decide
    exact hall b hword
  · have hzero : read32 (fun i => if i = 0 then 0x08 else 0)
        (4 * (b / WORD_BITS % SFS_BLK_NENTRY)) = 0 := by
      have hpos : b / WORD_BITS % SFS_BLK_NENTRY ≠ 0 := by
        rw [WORD_BITS, SFS_BLK_NENTRY]
        omega
      rw [read32, if_neg (by omega), if_neg (by omega), if_neg (by omega), if_neg (by omega)]
      rfl
    rw [hzero, decide_eq_false (by omega)]
    exact BitVec.getLsbD_zero

theorem mountable_lastBlockDevice : Mountable lastBlockDevice := by
  have hsuper := storesSuper_lastBlockDevice
  have hnbits : sfsFreemapBits (read32 (lastBlockDevice.disk SFS_BLKN_SUPER) 4) = 32768 := by
    rw [hsuper.blocks]
    rfl
  refine ⟨rfl, hsuper.magic, ?_, ?_, ?_⟩
  · rw [hsuper.blocks]
    exact Nat.le_refl _
  · rw [hnbits]
    decide
  · rw [hsuper.unused, Bitmap.count, Finset.card_eq_one]
    refine ⟨3, Finset.ext fun b => ?_⟩
    rw [Finset.mem_filter, Finset.mem_range, Finset.mem_singleton,
      show (mountedFreemap lastBlockDevice).nbits = 32768 from hnbits]
    constructor
    · rintro ⟨hlt, hbit⟩
      rw [freemap_lastBlockDevice b hlt] at hbit
      exact of_decide_eq_true hbit
    · rintro rfl
      exact ⟨by decide, freemap_lastBlockDevice 3 (by decide)⟩

theorem imageOk_lastBlockDevice : ImageOk {1} lastBlockDevice := by
  have hsuper := storesSuper_lastBlockDevice
  have hblocks : (mounted lastBlockDevice).fs.blocks = 4 := hsuper.blocks
  have hnbits : (mounted lastBlockDevice).fs.freemap.nbits = 32768 := by
    show sfsFreemapBits (read32 (lastBlockDevice.disk SFS_BLKN_SUPER) 4) = 32768
    rw [hsuper.blocks]
    rfl
  have hok : FsOk (mounted lastBlockDevice).fs := by
    refine ⟨?_, ?_, ?_, ?_, mountable_lastBlockDevice.unused.symm⟩
    · rw [hnbits]
      show 32768 = (mounted lastBlockDevice).fs.freemap.nbits / WORD_BITS * WORD_BITS
      rw [hnbits]
      rfl
    · rw [hblocks, hnbits]
      decide
    · rw [hblocks]
      decide
    · intro b hb hfree
      rw [hnbits] at hb
      obtain rfl : b = 3 := of_decide_eq_true ((freemap_lastBlockDevice b hb).symm.trans hfree)
      rw [hblocks]
      decide
  have hsame : SameInode emptyFile.din (decodeInode (lastBlockDevice.disk 1)) := storesInode_lastBlockDevice.same
  have hfile : FileOk (mounted lastBlockDevice).fs (decodeInode (lastBlockDevice.disk 1)) :=
    hsame.fileOk hok.regularFile.file
  have hnone : ∀ c, ¬ Owns (mounted lastBlockDevice).fs (decodeInode (lastBlockDevice.disk 1)) c := by
    intro c hc
    rw [hsame.owns] at hc
    obtain ⟨hne, rfl | ⟨k, -, rfl⟩⟩ := hc
    · exact hne rfl
    · exact hne (ite_self _)
  have hres : ∀ b, Reserved {1} (mounted lastBlockDevice).fs b → b = 1 ∨ b = 2 := by
    rintro b (rfl | ⟨h₁, h₂⟩)
    · exact Or.inl rfl
    · rw [hblocks, SFS_BLKBITS] at h₂
      rw [SFS_BLKN_FREEMAP] at h₁ h₂
      omega
  refine ⟨⟨hok, ?_, ?_, ?_, ?_, ?_, ?_⟩, ?_, ?_⟩
  · rintro j rfl
    exact hfile
  · rintro j rfl _
    rw [hsame.blocks, hsame.size]
    rfl
  · rintro j rfl l rfl c _ _
    rfl
  · intro b hb
    refine ⟨?_, ?_, ?_⟩
    · rcases hres b hb with rfl | rfl
      · decide
      · decide
    · rw [hblocks]
      rcases hres b hb with rfl | rfl
      · decide
      · decide
    · rcases hres b hb with rfl | rfl
      · exact freemap_lastBlockDevice 1 (by decide)
      · exact freemap_lastBlockDevice 2 (by decide)
  · rintro b - j rfl hb
    exact hnone b hb
  · rintro j rfl ⟨h₁, -⟩
    exact absurd h₁ (by decide)
  · rintro j rfl
    rw [storesInode_lastBlockDevice.links]
    decide
  · rintro j rfl
    rw [hsame.type]
    exact Or.inr rfl

/-- A call that writes returns success. -/
theorem step_write {j : ℕ} {len : UInt64} (hmem : j ∈ m.inodeList) (hreg : RegularFile m.fs (m.inode j).din)
    (hfit : len.toNat ≤ 1036 * 4096)
    (hfree : demand m.fs (m.inode j).din (blocksTo 0 len.toNat) ≤ m.fs.freemap.count) (buf : Mem) :
    ∃ fs sin, Mount.Step inodes m (m.setInode j fs sin) ∧
      sin.din.size = max (m.inode j).din.size len.toNat := by
  obtain ⟨io, heq, hret, -, hsize, -⟩ := (file_refines_bytes 0 len.toNat hreg (Nat.zero_le _)
    (by rw [Nat.zero_add]; exact hfit) buf).1 hfree
  refine ⟨io.fs, io.sin, ⟨.call j (.write buf 0 len), ⟨hmem, hreg.type⟩, ?_⟩, by
    rw [hsize, Nat.zero_add]⟩
  have hcall : sfsIoNolock m.fs (m.inode j) buf 0 len.toNat true = .ok io := heq
  rw [MountOp.run, NodeCall.run, hcall, ← hret]
  rfl

/-- The empty file is loaded, and five bytes are written to it. -/
theorem sync_remount_write : ∃ m m₁ m₂ m₃, ReflTransGen (Mount.Step {1}) (mounted lastBlockDevice) m ∧
    (m.inode 1).din.size = 5 ∧ sfsSync m = .ok m₁ ∧
    sfsDoMount { lastBlockDevice with disk := m₁.fs.disk } = .ok (.ok m₂) ∧
    sfsLoadInode m₂ 1 = .ok m₃ ∧ (m₃.inode 1).din.size = 5 ∧
    ∀ y, y / 4096 < 1036 → byteAt m₃.fs (m₃.inode 1).din y = byteAt m.fs (m.live 1) y := by
  have hmount : sfsDoMount lastBlockDevice = .ok (.ok (mounted lastBlockDevice)) :=
    sfsDoMount_iff.mpr ⟨mountable_lastBlockDevice, rfl⟩
  obtain ⟨m, hload, hmem, hfs, hlive, hok⟩ :=
    sfsLoadInode_spec (mountOk_mounted mountable_lastBlockDevice imageOk_lastBlockDevice) rfl
  have hstep : Mount.Step {1} (mounted lastBlockDevice) m := by
    refine ⟨.load 1, rfl, ?_⟩
    rw [MountOp.run, hload]
    rfl
  have hdin : (m.inode 1).din = decodeInode (lastBlockDevice.disk 1) := by
    rw [← Mount.live_of_mem hmem, hlive]
    exact Mount.live_of_not_mem List.not_mem_nil
  have hsame : SameInode emptyFile.din (m.inode 1).din := hdin ▸ storesInode_lastBlockDevice.same
  have hreg : RegularFile m.fs (m.inode 1).din := by
    rw [← Mount.live_of_mem hmem]
    refine hok.sound.regularFile rfl ?_
    rw [Mount.live_of_mem hmem, hsame.type]
    rfl
  have hfree : demand m.fs (m.inode 1).din (blocksTo 0 5) ≤ m.fs.freemap.count := by
    have hcount : m.fs.freemap.count = 1 := by
      rw [hfs]
      exact mountable_lastBlockDevice.unused.trans storesSuper_lastBlockDevice.unused
    have hcard := Finset.card_filter_le (Finset.Ico (m.inode 1).din.blocks (blocksTo 0 5))
      fun i => blockAt m.fs (m.inode 1).din i = 0
    rw [Nat.card_Ico, show blocksTo 0 5 = 1 from rfl] at hcard
    rw [demand, hcount, if_neg fun h => absurd h.2.1 (by decide), show blocksTo 0 5 = 1 from rfl]
    omega
  obtain ⟨fs, sin, hwrite, hsize⟩ : ∃ fs sin, Mount.Step {1} m (m.setInode 1 fs sin) ∧
      sin.din.size = max (m.inode 1).din.size (5 : UInt64).toNat :=
    step_write hmem hreg (by decide) hfree fun i => UInt8.ofNat i
  have hrun := ReflTransGen.tail (.single hstep) hwrite
  obtain ⟨m₁, m₂, hsync, hmount', -, -, hinodes⟩ := sync_remount hmount imageOk_lastBlockDevice hrun
  obtain ⟨m₃, hload', -, hsize', -, -, hbytes⟩ := hinodes 1 rfl
  have hfive : sin.din.size = 5 := by
    rw [hsize, hsame.size]
    rfl
  have hsame₁ : ((m.setInode 1 fs sin).inode 1).din = sin.din := by
    show (Function.update m.inode 1 sin 1).din = sin.din
    rw [Function.update_self]
  refine ⟨_, m₁, m₂, m₃, hrun, by rw [hsame₁, hfive], hsync, hmount', hload', ?_, hbytes⟩
  rw [hsize', Mount.live_of_mem (m := m.setInode 1 fs sin) hmem, hsame₁, hfive]

end Ucore.Sfs
