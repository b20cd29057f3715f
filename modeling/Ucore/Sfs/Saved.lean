import Ucore.Sfs.Metadata
import Ucore.Sfs.Mount

/-!
# What is not flagged as dirty is on the device

`Sound` says that the files of a mounted file system are in order, `Saved` that what is not flagged as
dirty is on the device.  Both are kept by every operation on an inode that succeeds, because an
operation on a regular file that changes the inode sets its flag (`NodeCall.marked`), and because an
allocation or a release sets the flag of the super block (`Flagged`).
-/

namespace Ucore.Sfs

open Memory Relation

variable {fs fs' : Fs} {sin sin' : Inode} {c : NodeCall} {m m' : Mount} {inodes : Set ℕ} {ino n : ℕ}

/-! ### One call that succeeds -/

/-- What a call that returns 0 does to a regular file. -/
structure Marked (fs : Fs) (sin : Inode) (fs' : Fs) (sin' : Inode) : Prop where
  priv : Private fs sin.din fs' sin'.din
  regular : RegularFile fs' sin'.din
  ino : sin'.ino = sin.ino
  dirty : sin'.dirty = true ∨ sin' = sin

theorem Marked.refl (h : RegularFile fs sin.din) : Marked fs sin fs sin :=
  ⟨Private.refl h.file.ok h.file.map, h, rfl, Or.inr rfl⟩

theorem IoCall.marked {buf : Mem} {write : Bool} {pos : ℤ} {len : ℕ} {io : Io}
    (hcall : IoCall fs sin buf write pos len (.ok io)) (hret : io.ret = 0)
    (h : RegularFile fs sin.din) : Marked fs sin io.fs io.sin := by
  cases hcall with
  | refused => exact absurd hret inval_ne_zero
  | nothing => exact Marked.refl h
  | @moves offset _ hpos hoff hlen hsmall hread hout =>
    cases hout with
    | full hstart ht hret' =>
      rw [hret'] at hret
      exact absurd hret (by decide)
    | all hstart ht hret' hfit hcount hmarks =>
      have htotal : ioLen write sin.din offset len ≠ 0 := by
        rw [ioLen]
        cases write with
        | true =>
          rw [if_pos rfl]
          omega
        | false =>
          have := hread rfl
          rw [if_neg Bool.false_ne_true]
          omega
      refine ⟨ht.priv, ht.metadata h fun hzero => absurd hzero htotal, ht.ino, ?_⟩
      by_cases hgrow : sin.din.size < offset + ioLen write sin.din offset len
      · exact Or.inl (hmarks.grown hgrow)
      · -- a transfer inside the file finds all its blocks
        have hblocks : blocksTo offset (ioLen write sin.din offset len) ≤ sin.din.blocks := by
          have hnb := h.nblocks
          rw [blocksTo, if_neg htotal, hnb]
          rw [SFS_BLKSIZE] at *
          omega
        exact Or.inr (hmarks.same hblocks (Nat.not_lt.mp hgrow))

theorem Truncated.marked (ht : Truncated fs sin n (.ok (0, fs', sin'))) (h : RegularFile fs sin.din) :
    Marked fs sin fs' sin' := by
  cases ht with
  | same => exact Marked.refl h
  | resized hsize hr hcount =>
    refine ⟨hr.priv, ⟨hr.type.trans h.type, hr.file, ?_⟩, hr.ino, Or.inl hr.dirty⟩
    rw [hr.nblocks, hr.size]
    rfl

/-- **A call that changes the inode sets its flag.** -/
theorem NodeCall.marked (h : RegularFile fs sin.din) (hrun : c.run fs sin = .ok (0, fs', sin')) :
    Marked fs sin fs' sin' := by
  have hio : ∀ (buf : Mem) (pos : ℤ) (len : UInt64) (write : Bool),
      (sfsIoNolock fs sin buf pos len.toNat write).map (fun io => (io.ret, io.fs, io.sin)) =
        .ok (0, fs', sin') → Marked fs sin fs' sin' := by
    intro buf pos len write heq
    have hcall := sfsIoNolock_call buf write pos h.ne_dir h.file len.toNat_lt
    generalize sfsIoNolock fs sin buf pos len.toNat write = x at hcall heq
    cases x with
    | error p => nomatch heq
    | ok io =>
      injection heq with heq
      injection heq with hret heq
      injection heq with hfs hsin
      rw [← hfs, ← hsin]
      exact hcall.marked hret h
  cases c with
  | write base pos len => exact hio _ _ _ _ hrun
  | read base pos len => exact hio _ _ _ _ hrun
  | tryseek pos =>
    have hcall := sfsTryseek_call pos h.file
    rw [show sfsTryseek fs sin pos = _ from hrun] at hcall
    cases hcall with
    | inside => exact Marked.refl h
    | grows hpos hn hgt ht => exact ht.marked h
  | truncate len =>
    have hcall := sfsTruncfile_call len h.file
    rw [show sfsTruncfile fs sin len = _ from hrun] at hcall
    cases hcall with
    | resizes hlen hn ht => exact ht.marked h

/-! ### The files -/

variable {din din' : ℕ → DiskInode} {b j : ℕ} {mem : Mem}

/-- The blocks of the inodes and of the freemap. -/
def Reserved (inodes : Set ℕ) (fs : Fs) (b : ℕ) : Prop := b ∈ inodes ∨ IsFreemapBlock fs b

/-- The inodes `inodes` are well-formed files and directories that share no block with each other and
with the blocks of the inodes and of the freemap. -/
structure Sound (inodes : Set ℕ) (fs : Fs) (din : ℕ → DiskInode) : Prop where
  ok : FsOk fs
  file : ∀ j ∈ inodes, FileOk fs (din j)
  regular : ∀ j ∈ inodes, (din j).type = SFS_TYPE_FILE → (din j).blocks = blocksOf (din j).size
  apart : ∀ j ∈ inodes, ∀ l ∈ inodes, ∀ c, Owns fs (din j) c → Owns fs (din l) c → j = l
  inUse : ∀ b, Reserved inodes fs b → InUse fs b
  notOwned : ∀ b, Reserved inodes fs b → ∀ j ∈ inodes, ¬ Owns fs (din j) b
  disjoint : ∀ j ∈ inodes, ¬ IsFreemapBlock fs j

theorem Sound.regularFile (h : Sound inodes fs din) (hj : j ∈ inodes)
    (hty : (din j).type = SFS_TYPE_FILE) : RegularFile fs (din j) :=
  ⟨hty, h.file j hj, h.regular j hj hty⟩

/-- Only the blocks of the files matter. -/
theorem Sound.of_disk (h : Sound inodes fs din) (hok : FsOk fs') (hblocks : fs'.blocks = fs.blocks)
    (hfree : ∀ c < fs.blocks, fs'.free c = fs.free c)
    (hdisk : ∀ j ∈ inodes, ∀ c, Owns fs (din j) c → fs'.disk c = fs.disk c) :
    Sound inodes fs' din ∧ ∀ j ∈ inodes, SameFile fs fs' (din j) := by
  have hin : ∀ c, InUse fs' c ↔ InUse fs c := by
    intro c
    rw [InUse, InUse, hblocks]
    refine and_congr_right fun _ => and_congr_right fun hlt => ?_
    rw [hfree c hlt]
  have hmeta : ∀ c, IsFreemapBlock fs' c ↔ IsFreemapBlock fs c := fun c => by
    rw [IsFreemapBlock, IsFreemapBlock, hblocks]
  have hres : ∀ c, Reserved inodes fs' c → Reserved inodes fs c := fun c hc =>
    hc.imp_right (hmeta c).mp
  have hsame : ∀ j ∈ inodes, SameFile fs fs' (din j) := fun j hj =>
    (h.file j hj).same hok fun c hc =>
      ⟨(hin c).mpr ((h.file j hj).map.inUse_of_owns hc), hdisk j hj c hc⟩
  refine ⟨⟨hok, fun j hj => (hsame j hj).file, h.regular, ?_, ?_, ?_, ?_⟩, hsame⟩
  · intro j hj l hl c hc hc'
    exact h.apart j hj l hl c (((hsame j hj).owns c).mp hc) (((hsame l hl).owns c).mp hc')
  · intro b hb
    exact (hin b).mpr (h.inUse b (hres b hb))
  · intro b hb j hj ho
    exact h.notOwned b (hres b hb) j hj (((hsame j hj).owns b).mp ho)
  · intro j hj hb
    exact h.disjoint j hj ((hmeta j).mp hb)

theorem Sound.congr (h : Sound inodes fs din) (hs : ∀ j ∈ inodes, SameInode (din j) (din' j)) :
    Sound inodes fs din' := by
  refine ⟨h.ok, ?_, ?_, ?_, h.inUse, ?_, h.disjoint⟩
  · intro j hj
    exact (hs j hj).fileOk (h.file j hj)
  · intro j hj hty
    rw [(hs j hj).type] at hty
    rw [(hs j hj).blocks, (hs j hj).size]
    exact h.regular j hj hty
  · intro j hj l hl c hc hc'
    exact h.apart j hj l hl c (((hs j hj).owns c).mp hc) (((hs l hl).owns c).mp hc')
  · intro b hb j hj ho
    exact h.notOwned b hb j hj (((hs j hj).owns b).mp ho)

/-- A block that belongs to no file may change. -/
theorem Sound.setDisk (h : Sound inodes fs din) (hb : ∀ j ∈ inodes, ¬ Owns fs (din j) b) (mem : Mem) :
    Sound inodes (fs.setDisk b mem) din ∧ ∀ j ∈ inodes, SameFile fs (fs.setDisk b mem) (din j) := by
  refine h.of_disk (h.ok.setDisk b mem) rfl (fun _ _ => rfl) ?_
  intro j hj c hc
  refine Function.update_of_ne ?_ _ _
  rintro rfl
  exact hb j hj hc

/-- **A call on one file** leaves the others alone, and the blocks that belong to no file. -/
theorem Sound.call (h : Sound inodes fs din) (hj : j ∈ inodes) (hdin : din j = sin.din)
    (hm : Marked fs sin fs' sin') : Sound inodes fs' (Function.update din j sin'.din) ∧
      ∀ b, Reserved inodes fs b → fs'.disk b = fs.disk b := by
  have hp := hm.priv
  have hother : ∀ l ∈ inodes, l ≠ j → Untouched fs fs' sin'.din (din l) := by
    intro l hl hlj
    refine hp.untouched (h.file l hl) ?_
    intro c hc hc'
    rw [← hdin] at hc'
    exact hlj (h.apart l hl j hj c hc hc')
  have hkeep : ∀ b, Reserved inodes fs b →
      InUse fs' b ∧ ¬ Owns fs' sin'.din b ∧ fs'.disk b = fs.disk b := by
    intro b hb
    refine hp.keeps b (h.inUse b hb) ?_
    rw [← hdin]
    exact h.notOwned b hb j hj
  have hmeta : ∀ c, IsFreemapBlock fs' c ↔ IsFreemapBlock fs c := fun c => by
    rw [IsFreemapBlock, IsFreemapBlock, hp.blocks]
  have hres : ∀ c, Reserved inodes fs' c → Reserved inodes fs c := fun c hc =>
    hc.imp_right (hmeta c).mp
  refine ⟨⟨hp.ok, ?_, ?_, ?_, ?_, ?_, ?_⟩, fun b hb => (hkeep b hb).2.2⟩
  · intro l hl
    by_cases hlj : l = j
    · rw [hlj, Function.update_self]
      exact hm.regular.file
    · rw [Function.update_of_ne hlj]
      exact (hother l hl hlj).file
  · intro l hl hty
    by_cases hlj : l = j
    · rw [hlj, Function.update_self]
      exact hm.regular.nblocks
    · rw [Function.update_of_ne hlj] at hty ⊢
      exact h.regular l hl hty
  · intro k hk l hl c hc hc'
    by_cases hkj : k = j
    · by_cases hlj : l = j
      · rw [hkj, hlj]
      · rw [hkj, Function.update_self] at hc
        rw [Function.update_of_ne hlj] at hc'
        exact absurd hc ((hother l hl hlj).apart c hc')
    · rw [Function.update_of_ne hkj] at hc
      by_cases hlj : l = j
      · rw [hlj, Function.update_self] at hc'
        exact absurd hc' ((hother k hk hkj).apart c hc)
      · rw [Function.update_of_ne hlj] at hc'
        exact h.apart k hk l hl c (((hother k hk hkj).owns c).mp hc)
          (((hother l hl hlj).owns c).mp hc')
  · intro b hb
    exact (hkeep b (hres b hb)).1
  · intro b hb l hl ho
    by_cases hlj : l = j
    · rw [hlj, Function.update_self] at ho
      exact (hkeep b (hres b hb)).2.1 ho
    · rw [Function.update_of_ne hlj] at ho
      exact h.notOwned b (hres b hb) l hl (((hother l hl hlj).owns b).mp ho)
  · intro l hl hb
    exact h.disjoint l hl ((hmeta l).mp hb)

/-! ### The flags -/

/-- The inode with number `ino`: in memory, or as it is on the device. -/
def Mount.live (m : Mount) (ino : ℕ) : DiskInode :=
  if ino ∈ m.inodeList then (m.inode ino).din else decodeInode (m.fs.disk ino)

/-- The blocks of the freemap hold the words of the bitmap. -/
def StoresFreemap (disk : ℕ → Mem) (freemap : Bitmap) : Prop :=
  ∀ ix < freemap.nwords, read32 (disk (SFS_BLKN_FREEMAP + ix / SFS_BLK_NENTRY))
    (4 * (ix % SFS_BLK_NENTRY)) = (freemap.map ix).toNat

/-- What is not flagged as dirty is on the device. -/
structure Saved (inodes : Set ℕ) (m : Mount) : Prop where
  magic : m.magic = SFS_MAGIC
  nbits : m.fs.freemap.nbits = sfsFreemapBits m.fs.blocks
  mapped : m.fs.freemap.nbits ≠ 0
  nodup : m.inodeList.Nodup
  listed : ∀ j ∈ m.inodeList, j ∈ inodes
  number : ∀ j ∈ m.inodeList, (m.inode j).ino = j
  size : ∀ j ∈ m.inodeList, (m.inode j).din.size < 2 ^ 32
  links : ∀ j ∈ m.inodeList, m.nlinks j ≠ 0 ∧ m.nlinks j < 2 ^ 16
  type : ∀ j ∈ inodes, (m.live j).type = SFS_TYPE_DIR ∨ (m.live j).type = SFS_TYPE_FILE
  onDisk : ∀ j ∈ inodes, j ∉ m.inodeList → decodeLinks (m.fs.disk j) ≠ 0
  inode : ∀ j ∈ m.inodeList, (m.inode j).dirty = false →
    StoresInode (m.fs.disk j) (m.inode j).din (m.nlinks j)
  super : m.fs.superDirty = false →
    StoresSuper (m.fs.disk SFS_BLKN_SUPER) m.magic m.fs.blocks m.fs.unusedBlocks ∧
      StoresFreemap m.fs.disk m.fs.freemap

structure MountOk (inodes : Set ℕ) (m : Mount) : Prop where
  sound : Sound inodes m.fs m.live
  saved : Saved inodes m

theorem Mount.live_of_mem (hj : j ∈ m.inodeList) : m.live j = (m.inode j).din := if_pos hj

theorem Mount.live_of_not_mem (hj : j ∉ m.inodeList) : m.live j = decodeInode (m.fs.disk j) :=
  if_neg hj

/-- The freemap lies in its blocks. -/
theorem Saved.freemapBlock (h : Saved inodes m) (hok : FsOk m.fs) {ix : ℕ}
    (hix : ix < m.fs.freemap.nwords) :
    IsFreemapBlock m.fs (SFS_BLKN_FREEMAP + ix / SFS_BLK_NENTRY) := by
  have hbits := h.nbits
  have hwords := hok.words
  have hmod := Nat.mod_le ((m.fs.blocks + SFS_BLKBITS - 1) / SFS_BLKBITS * SFS_BLKBITS) (2 ^ 32)
  rw [sfsFreemapBits] at hbits
  rw [IsFreemapBlock]
  rw [SFS_BLKBITS] at *
  rw [WORD_BITS] at hwords
  rw [SFS_BLK_NENTRY, SFS_BLKN_FREEMAP]
  omega

/-- The fields of an inode in memory fit their sizes. -/
theorem MountOk.fits (h : MountOk inodes m) (hj : j ∈ m.inodeList) :
    FitsInode (m.inode j).din (m.nlinks j) := by
  have hin := h.saved.listed j hj
  have hfile := h.sound.file j hin
  have hty := h.saved.type j hin
  rw [Mount.live_of_mem hj] at hfile hty
  have hsmall := h.sound.ok.small
  refine ⟨h.saved.size j hj, ?_, (h.saved.links j hj).2, ?_, ?_, ?_⟩
  · rcases hty with hty | hty
    · rw [hty]
      decide
    · rw [hty]
      decide
  · have hbound := hfile.bound
    rw [maxBlocks, SFS_NDIRECT, SFS_BLK_NENTRY] at hbound
    omega
  · intro k hk
    have hat : blockAt m.fs (m.inode j).din k = (m.inode j).din.direct k := if_pos hk
    by_cases h0 : (m.inode j).din.direct k = 0
    · rw [h0]
      decide
    · rw [← hat] at h0 ⊢
      exact (hfile.map.inUse k (hk.trans (by decide)) h0).2.1.trans hsmall
  · by_cases h0 : (m.inode j).din.indirect = 0
    · rw [h0]
      decide
    · exact (hfile.map.indirect h0).1.2.1.trans hsmall

/-! ### The operations -/

/-- **`sfs_load_inode`** of an inode of the image. -/
theorem sfsLoadInode_spec (h : MountOk inodes m) (hino : ino ∈ inodes) :
    ∃ m', sfsLoadInode m ino = .ok m' ∧ ino ∈ m'.inodeList ∧ m'.fs = m.fs ∧ m'.live = m.live ∧
      MountOk inodes m' := by
  rw [sfsLoadInode]
  by_cases hmem : ino ∈ m.inodeList
  · rw [if_pos hmem]
    exact ⟨m, rfl, hmem, rfl, rfl, h⟩
  · have hin := h.sound.inUse ino (Or.inl hino)
    have hty := h.saved.type ino hino
    have hlinks := h.saved.onDisk ino hino hmem
    have hread : sfsRbuf m.fs sizeofDiskInode ino 0 = .ok (m.fs.disk ino) := by
      rw [sfsRbuf_spec hin (by decide) (by decide)]
      simp only [Nat.zero_add]
    rw [Mount.live_of_not_mem hmem] at hty
    rw [if_neg hmem, assertInuse_spec h.sound.ok hin, ok_bind, hread, ok_bind, ensure_pos hlinks,
      ok_bind]
    dsimp only
    rw [ensure_pos hty, ok_bind]
    let m' : Mount := { m.setInode ino m.fs ⟨decodeInode (m.fs.disk ino), ino, false⟩ with
      inodeList := ino :: m.inodeList
      nlinks := Function.update m.nlinks ino (decodeLinks (m.fs.disk ino)) }
    have hself : m'.inode ino = ⟨decodeInode (m.fs.disk ino), ino, false⟩ :=
      Function.update_self _ _ _
    have hother : ∀ j, j ≠ ino → m'.inode j = m.inode j ∧ m'.nlinks j = m.nlinks j := fun j hj =>
      ⟨Function.update_of_ne hj _ _, Function.update_of_ne hj _ _⟩
    have hnlinks : m'.nlinks ino = decodeLinks (m.fs.disk ino) := Function.update_self _ _ _
    have hcases : ∀ j, j ∈ m'.inodeList → j = ino ∨ j ≠ ino ∧ j ∈ m.inodeList := fun j hj =>
      (List.mem_cons.mp hj).elim Or.inl fun hj => Or.inr ⟨fun he => hmem (he ▸ hj), hj⟩
    have hlive : m'.live = m.live := by
      funext j
      by_cases hj : j = ino
      · rw [hj, Mount.live_of_not_mem hmem, Mount.live_of_mem List.mem_cons_self, hself]
      · by_cases hjm : j ∈ m.inodeList
        · rw [Mount.live_of_mem hjm, Mount.live_of_mem (List.mem_cons_of_mem _ hjm), (hother j hj).1]
        · have hnot : j ∉ m'.inodeList := fun hj' => hjm ((hcases j hj').resolve_left hj).2
          rw [Mount.live_of_not_mem hjm, Mount.live_of_not_mem hnot]
          rfl
    have hsound : Sound inodes m'.fs m'.live := by
      rw [hlive]
      exact h.sound
    refine ⟨m', rfl, List.mem_cons_self, rfl, hlive, hsound, ?_⟩
    have hs := h.saved
    refine ⟨hs.magic, hs.nbits, hs.mapped, List.nodup_cons.mpr ⟨hmem, hs.nodup⟩, ?_, ?_, ?_, ?_, ?_,
      ?_, ?_, hs.super⟩
    · intro j hj
      rcases hcases j hj with rfl | ⟨-, hj⟩
      · exact hino
      · exact hs.listed j hj
    · intro j hj
      rcases hcases j hj with rfl | ⟨hne, hj⟩
      · rw [hself]
      · rw [(hother j hne).1]
        exact hs.number j hj
    · intro j hj
      rcases hcases j hj with rfl | ⟨hne, hj⟩
      · rw [hself]
        exact read32_lt _ _
      · rw [(hother j hne).1]
        exact hs.size j hj
    · intro j hj
      rcases hcases j hj with rfl | ⟨hne, hj⟩
      · rw [hnlinks]
        exact ⟨hlinks, read16_lt _ _⟩
      · rw [(hother j hne).2]
        exact hs.links j hj
    · rw [hlive]
      exact hs.type
    · intro j hj hnot
      exact hs.onDisk j hj fun hmem => hnot (List.mem_cons_of_mem _ hmem)
    · intro j hj hclean
      rcases hcases j hj with rfl | ⟨hne, hj⟩
      · rw [hself, hnlinks]
        exact ⟨⟨rfl, rfl, rfl, fun _ _ => rfl, rfl⟩, rfl⟩
      · rw [(hother j hne).1] at hclean ⊢
        rw [(hother j hne).2]
        exact hs.inode j hj hclean

/-- **A call on a regular file in memory.** -/
theorem MountOk.call (h : MountOk inodes m) (hmem : ino ∈ m.inodeList)
    (hty : (m.inode ino).din.type = SFS_TYPE_FILE)
    (hrun : c.run m.fs (m.inode ino) = .ok (0, fs', sin')) :
    MountOk inodes (m.setInode ino fs' sin') := by
  have hs := h.saved
  have hino := hs.listed ino hmem
  have hlive := Mount.live_of_mem hmem
  have hreg := h.sound.regularFile hino (by rw [hlive]; exact hty)
  rw [hlive] at hreg
  have hm := NodeCall.marked hreg hrun
  obtain ⟨hsound, hdisk⟩ := h.sound.call hino hlive hm
  have hself : (m.setInode ino fs' sin').inode ino = sin' := Function.update_self _ _ _
  have hother : ∀ j, j ≠ ino → (m.setInode ino fs' sin').inode j = m.inode j := fun j hj =>
    Function.update_of_ne hj _ _
  have heq : ∀ j ∈ inodes, (m.setInode ino fs' sin').live j = Function.update m.live ino sin'.din j := by
    intro j hj
    by_cases hji : j = ino
    · have hmem' : ino ∈ (m.setInode ino fs' sin').inodeList := hmem
      rw [hji, Function.update_self, Mount.live_of_mem hmem', hself]
    · rw [Function.update_of_ne hji]
      by_cases hjm : j ∈ m.inodeList
      · have hjm' : j ∈ (m.setInode ino fs' sin').inodeList := hjm
        rw [Mount.live_of_mem hjm, Mount.live_of_mem hjm', hother j hji]
      · have hjm' : j ∉ (m.setInode ino fs' sin').inodeList := hjm
        rw [Mount.live_of_not_mem hjm, Mount.live_of_not_mem hjm', ← hdisk j (Or.inl hj)]
        rfl
  refine ⟨hsound.congr fun j hj => SameInode.of_eq (heq j hj), ?_⟩
  have hf := hm.priv.flags
  have hblocks := hm.priv.blocks
  refine ⟨hs.magic, ?_, ?_, hs.nodup, hs.listed, ?_, ?_, hs.links, ?_, ?_, ?_, ?_⟩
  · show fs'.freemap.nbits = sfsFreemapBits fs'.blocks
    rw [hf.nbits, hblocks]
    exact hs.nbits
  · show fs'.freemap.nbits ≠ 0
    rw [hf.nbits]
    exact hs.mapped
  · intro j hj
    by_cases hji : j = ino
    · rw [hji, hself, hm.ino]
      exact hs.number ino hmem
    · rw [hother j hji]
      exact hs.number j hj
  · intro j hj
    by_cases hji : j = ino
    · rw [hji, hself]
      have hsize := hm.regular.bounded.size
      rw [maxBlocks, SFS_NDIRECT, SFS_BLK_NENTRY, SFS_BLKSIZE] at hsize
      omega
    · rw [hother j hji]
      exact hs.size j hj
  · intro j hj
    rw [heq j hj]
    by_cases hji : j = ino
    · rw [hji, Function.update_self]
      exact Or.inr hm.regular.type
    · rw [Function.update_of_ne hji]
      exact hs.type j hj
  · intro j hj hnot
    show decodeLinks (fs'.disk j) ≠ 0
    rw [hdisk j (Or.inl hj)]
    exact hs.onDisk j hj hnot
  · intro j hj hclean
    show StoresInode (fs'.disk j) _ _
    rw [hdisk j (Or.inl (hs.listed j hj))]
    by_cases hji : j = ino
    · rw [hji, hself] at hclean ⊢
      rcases hm.dirty with hd | hsame
      · exact absurd (hd.symm.trans hclean) (by decide)
      · rw [hsame] at hclean ⊢
        exact hs.inode ino hmem hclean
    · rw [hother j hji] at hclean ⊢
      exact hs.inode j hj hclean
  · intro hclean
    have hclean' : fs'.superDirty = false := hclean
    rcases hf.dirty with hd | ⟨hd, hfree, hunused⟩
    · exact absurd (hd.symm.trans hclean') (by decide)
    · obtain ⟨hsuper, hmap⟩ := hs.super (hd.symm.trans hclean')
      constructor
      · show StoresSuper (fs'.disk SFS_BLKN_SUPER) m.magic fs'.blocks fs'.unusedBlocks
        have hzero : fs'.disk SFS_BLKN_SUPER = m.fs.disk SFS_BLKN_SUPER := hf.super
        rw [hzero, hblocks, hunused]
        exact hsuper
      · show StoresFreemap fs'.disk fs'.freemap
        rw [hfree]
        intro ix hix
        rw [hdisk _ (Or.inr (hs.freemapBlock h.sound.ok hix))]
        exact hmap ix hix

/-- Inodes have been written to their blocks. -/
structure Flushed (inodes : Set ℕ) (m m' : Mount) : Prop where
  fs : m'.fs = { m.fs with disk := m'.fs.disk }
  same : ∀ j ∈ inodes, SameFile m.fs m'.fs (m.live j)
  inodeList : m'.inodeList = m.inodeList
  nlinks : m'.nlinks = m.nlinks
  live : m'.live = m.live
  clean : ∀ j, (m.inode j).dirty = false → (m'.inode j).dirty = false

theorem SameFile.refl {other : DiskInode} (h : FileOk fs other) : SameFile fs fs other :=
  ⟨h, fun _ => rfl, fun _ _ => rfl, fun _ => Iff.rfl⟩

theorem SameFile.trans {fs'' : Fs} {other : DiskInode} (h₁ : SameFile fs fs' other)
    (h₂ : SameFile fs' fs'' other) : SameFile fs fs'' other :=
  ⟨h₂.file, fun k => (h₂.map k).trans (h₁.map k), fun y hy => (h₂.bytes y hy).trans (h₁.bytes y hy),
    fun c => (h₂.owns c).trans (h₁.owns c)⟩

theorem Flushed.refl (h : MountOk inodes m) : Flushed inodes m m :=
  ⟨rfl, fun j hj => SameFile.refl (h.sound.file j hj), rfl, rfl, rfl, fun _ hclean => hclean⟩

theorem Flushed.trans {m'' : Mount} (h₁ : Flushed inodes m m') (h₂ : Flushed inodes m' m'') :
    Flushed inodes m m'' := by
  refine ⟨?_, ?_, h₂.inodeList.trans h₁.inodeList, h₂.nlinks.trans h₁.nlinks,
    h₂.live.trans h₁.live, fun j hj => h₂.clean j (h₁.clean j hj)⟩
  · rw [h₂.fs, h₁.fs]
  · intro j hj
    refine (h₁.same j hj).trans ?_
    rw [← h₁.live]
    exact h₂.same j hj

/-- **`sfs_fsync`** of an inode in memory. -/
theorem sfsFsync_spec (h : MountOk inodes m) (hmem : ino ∈ m.inodeList) :
    ∃ m', sfsFsync m ino = .ok m' ∧ MountOk inodes m' ∧ Flushed inodes m m' ∧
      (m'.inode ino).dirty = false := by
  rw [sfsFsync]
  by_cases hdirty : (m.inode ino).dirty = true
  · have hs := h.saved
    have hino := hs.listed ino hmem
    have hin := h.sound.inUse ino (Or.inl hino)
    have hwrite : sfsWbuf m.fs (encodeInode (m.inode ino).din (m.nlinks ino)) sizeofDiskInode
        (m.inode ino).ino 0 = .ok (m.fs.setDisk ino (memcpy (m.fs.disk ino) 0
          (encodeInode (m.inode ino).din (m.nlinks ino)) sizeofDiskInode)) := by
      rw [hs.number ino hmem, sfsWbuf_spec hin (by decide) (by decide)]
    rw [if_pos hdirty, hwrite, ok_bind]
    have hstored : StoresInode (memcpy (m.fs.disk ino) 0
        (encodeInode (m.inode ino).din (m.nlinks ino)) sizeofDiskInode) (m.inode ino).din
        (m.nlinks ino) := stores_encodeInode (h.fits hmem)
    generalize memcpy (m.fs.disk ino) 0 (encodeInode (m.inode ino).din (m.nlinks ino))
      sizeofDiskInode = mem at hstored
    obtain ⟨hsound, hsame⟩ := h.sound.setDisk (h.sound.notOwned ino (Or.inl hino)) mem
    let m' : Mount := m.setInode ino (m.fs.setDisk ino mem) { m.inode ino with dirty := false }
    have hself : m'.inode ino = { m.inode ino with dirty := false } := Function.update_self _ _ _
    have hother : ∀ j, j ≠ ino → m'.inode j = m.inode j := fun j hj => Function.update_of_ne hj _ _
    have hdin : ∀ j, (m'.inode j).din = (m.inode j).din ∧ (m'.inode j).ino = (m.inode j).ino := by
      intro j
      by_cases hj : j = ino
      · rw [hj, hself]
        exact ⟨rfl, rfl⟩
      · rw [hother j hj]
        exact ⟨rfl, rfl⟩
    have hdisk : ∀ c, c ≠ ino → m'.fs.disk c = m.fs.disk c := fun c hc => Function.update_of_ne hc _ _
    have hwritten : m'.fs.disk ino = mem := Function.update_self _ _ _
    have hlive : m'.live = m.live := by
      funext j
      by_cases hj : j ∈ m.inodeList
      · have hj' : j ∈ m'.inodeList := hj
        rw [Mount.live_of_mem hj, Mount.live_of_mem hj', (hdin j).1]
      · have hj' : j ∉ m'.inodeList := hj
        rw [Mount.live_of_not_mem hj, Mount.live_of_not_mem hj', hdisk]
        rintro rfl
        exact hj hmem
    refine ⟨m', rfl, ⟨?_, ?_⟩, ⟨rfl, hsame, rfl, rfl, hlive, ?_⟩, ?_⟩
    · rw [hlive]
      exact hsound
    · refine ⟨hs.magic, hs.nbits, hs.mapped, hs.nodup, hs.listed, ?_, ?_, hs.links, ?_, ?_, ?_, ?_⟩
      · intro j hj
        rw [(hdin j).2]
        exact hs.number j hj
      · intro j hj
        rw [(hdin j).1]
        exact hs.size j hj
      · rw [hlive]
        exact hs.type
      · intro j hj hnot
        rw [hdisk]
        · exact hs.onDisk j hj hnot
        · rintro rfl
          exact hnot hmem
      · intro j hj hclean
        rw [(hdin j).1]
        by_cases hji : j = ino
        · rw [hji, hwritten]
          exact hstored
        · rw [hother j hji] at hclean
          rw [hdisk j hji]
          exact hs.inode j hj hclean
      · intro hclean
        obtain ⟨hsuper, hmap⟩ := hs.super hclean
        rw [hdisk SFS_BLKN_SUPER hin.1.symm]
        refine ⟨hsuper, ?_⟩
        intro ix hix
        rw [hdisk]
        · exact hmap ix hix
        · rintro heq
          refine h.sound.disjoint ino hino ?_
          rw [← heq]
          exact hs.freemapBlock h.sound.ok hix
    · intro j hj
      by_cases hji : j = ino
      · rw [hji, hself]
      · rw [hother j hji]
        exact hj
    · rw [hself]
  · rw [if_neg hdirty]
    exact ⟨m, rfl, h, Flushed.refl h, Bool.eq_false_of_not_eq_true hdirty⟩

/-- **`sfs_reclaim`** of an inode in memory. -/
theorem sfsReclaim_spec (h : MountOk inodes m) (hmem : ino ∈ m.inodeList) :
    ∃ m', sfsReclaim m ino = .ok (0, m') ∧ MountOk inodes m' ∧ m'.fs.blocks = m.fs.blocks := by
  have hlinks := (h.saved.links ino hmem).1
  obtain ⟨m₁, heq, h₁, hflush, hclean⟩ := sfsFsync_spec h hmem
  have hlinks₁ : m₁.nlinks ino ≠ 0 := by
    rw [hflush.nlinks]
    exact hlinks
  have hs := h₁.saved
  have hmem₁ : ino ∈ m₁.inodeList := by
    rw [hflush.inodeList]
    exact hmem
  have hino := hs.listed ino hmem₁
  have hstored := hs.inode ino hmem₁ hclean
  let m' : Mount := { m₁ with inodeList := m₁.inodeList.erase ino }
  have hgone : ino ∉ m'.inodeList := List.Nodup.not_mem_erase hs.nodup
  have hsub : ∀ j, j ∈ m'.inodeList → j ∈ m₁.inodeList := fun j hj => List.mem_of_mem_erase hj
  have hcases : ∀ j, j ∉ m'.inodeList → j = ino ∨ j ∉ m₁.inodeList := by
    intro j hj
    by_cases hji : j = ino
    · exact Or.inl hji
    · exact Or.inr fun hmem => hj ((List.mem_erase_of_ne hji).mpr hmem)
  have hlive : ∀ j, SameInode (m₁.live j) (m'.live j) := by
    intro j
    by_cases hj : j ∈ m'.inodeList
    · rw [Mount.live_of_mem hj, Mount.live_of_mem (hsub j hj)]
      exact SameInode.of_eq rfl
    · rw [Mount.live_of_not_mem hj]
      rcases hcases j hj with rfl | hj'
      · rw [Mount.live_of_mem hmem₁]
        exact hstored.same
      · rw [Mount.live_of_not_mem hj']
        exact SameInode.of_eq rfl
  have hblocks : m'.fs.blocks = m.fs.blocks := by
    show m₁.fs.blocks = m.fs.blocks
    rw [hflush.fs]
  refine ⟨m', ?_, ⟨h₁.sound.congr fun j _ => hlive j, ?_⟩, hblocks⟩
  · rw [sfsReclaim, if_neg hlinks, ok_bind]
    show (if (0 : ℤ) ≠ 0 then _ else sfsFsync m ino >>= _) = _
    rw [if_neg (not_not.mpr rfl), heq, ok_bind, if_neg hlinks₁]
  · refine ⟨hs.magic, hs.nbits, hs.mapped, hs.nodup.erase _, fun j hj => hs.listed j (hsub j hj),
      fun j hj => hs.number j (hsub j hj), fun j hj => hs.size j (hsub j hj),
      fun j hj => hs.links j (hsub j hj), ?_, ?_, fun j hj => hs.inode j (hsub j hj), hs.super⟩
    · intro j hj
      rw [(hlive j).type]
      exact hs.type j hj
    · intro j hj hnot
      rcases hcases j hnot with rfl | hj'
      · show decodeLinks (m₁.fs.disk j) ≠ 0
        rw [hstored.links]
        exact hlinks₁
      · exact hs.onDisk j hj hj'

end Ucore.Sfs
