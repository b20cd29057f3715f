import Ucore.Mksfs.Image
import Ucore.Sfs.Remount

/-!
# What the kernel reads from an image

The kernel mounts the image (`mountable_image`), and finds in it the size, the type and the blocks of
each file (`FileIs.decode`, `FileIs.fileOk`).
-/

namespace Ucore.Mksfs

open Fallible Function Memory Sfs

variable {s : SfsFs} {use : ℕ → Use} {f b c i j k n type : ℕ} {img : ℕ → Mem} {bs : List ℕ}
  {ws : List (List UInt8)}

/-! ### The freemap -/

/-- The loop of `close_sfs` sets the bits in the list. -/
theorem freemap_foldl (l : List ℕ) (data : ℕ → BitVec 32) :
    ((l.foldl (fun data j => update data (j / WORD_BITS)
      (data (j / WORD_BITS) ||| BitVec.twoPow 32 (j % WORD_BITS))) data) (j / WORD_BITS)).getLsbD
        (j % WORD_BITS) = (decide (j ∈ l) || (data (j / WORD_BITS)).getLsbD (j % WORD_BITS)) := by
  induction l generalizing data with
  | nil => simp
  | cons a l ih =>
    rw [List.foldl_cons, ih]
    have hlow : j % WORD_BITS < 32 := Nat.mod_lt _ (by decide)
    by_cases hword : j / WORD_BITS = a / WORD_BITS
    · have hbit : (j = a) ↔ j % WORD_BITS = a % WORD_BITS := by
        rw [WORD_BITS] at *
        omega
      rw [hword, update_self, BitVec.getLsbD_or, BitVec.getLsbD_twoPow]
      by_cases hja : j = a
      · simp [hja, Nat.mod_lt, WORD_BITS]
      · have hne : a % WORD_BITS ≠ j % WORD_BITS := fun heq => hja (hbit.mpr heq.symm)
        simp [hja, hne]
    · have hja : j ≠ a := by
        rintro rfl
        exact hword rfl
      rw [update_of_ne hword]
      simp [hja]

/-- The free blocks are those that have not been handed out. -/
theorem freemapData_bit {ninos nextIno : ℕ} (hj : j < SFS_BLKBITS) :
    (SfsFs.freemapData ninos nextIno i (j / WORD_BITS)).getLsbD (j % WORD_BITS) =
      decide (nextIno ≤ i + j ∧ i + j < ninos) := by
  rw [SfsFs.freemapData]
  split
  case isTrue hin =>
    dsimp only
    rw [freemap_foldl]
    have hzero : (0 : BitVec 32).getLsbD (j % WORD_BITS) = false := BitVec.getLsbD_zero
    rw [hzero, Bool.or_false, decide_eq_decide, List.mem_range'_1]
    split <;> split <;> omega
  case isFalse hin =>
    have hzero : (0 : BitVec 32).getLsbD (j % WORD_BITS) = false := BitVec.getLsbD_zero
    rw [hzero]
    exact (decide_eq_false (by omega)).symm

/-- The device with the image. -/
def deviceOf (dBlocks : ℕ) (img : ℕ → Mem) : Device := ⟨dBlocks, SFS_BLKSIZE, img⟩

variable {d : ℕ}

/-- The super block is read back. -/
theorem ImageIs.storesSuper (himg : ImageIs s use img) (hok : Ok s use) :
    StoresSuper ((deviceOf d img).disk SFS_BLKN_SUPER) SFS_MAGIC s.ninos s.unusedBlocks := by
  have hmax := hok.max
  have hunused := hok.unused
  rw [SFS_MAX_NBLKS] at hmax
  refine stores_encodeSuper SfsFs.superInfo (by decide) (by omega) (by omega) ?_
  intro a ha
  show img SFS_BLKN_SUPER a = _
  rw [himg.super, padded, if_pos (by rw [sizeofSuper]; omega)]
  rfl

theorem first_blocks (hok : Ok s use) : 0 < s.ninos ∧ s.ninos ≤ sfsFreemapBlocks s.ninos * SFS_BLKBITS ∧
    sfsFreemapBits s.ninos = sfsFreemapBlocks s.ninos * SFS_BLKBITS := by
  have hfirst := hok.first_le
  have hle := hok.le
  have hmax := hok.max
  rw [first_eq] at hfirst
  rw [SFS_MAX_NBLKS] at hmax
  rw [sfsFreemapBits, sfsFreemapBlocks, SFS_BLKBITS]
  rw [sfsFreemapBlocks, SFS_BLKBITS] at hfirst
  omega

/-- **The freemap** of the mounted image. -/
theorem ImageIs.bit (himg : ImageIs s use img) (hok : Ok s use)
    (hb : b < sfsFreemapBits s.ninos) : (mountedFreemap (deviceOf d img)).bit b =
      decide (s.nextIno ≤ b ∧ b < s.ninos) := by
  have hsuper := (himg.storesSuper hok (d := d)).blocks
  obtain ⟨hpos, hcover, hbits⟩ := first_blocks hok
  have hnbits : sfsFreemapBits (read32 ((deviceOf d img).disk SFS_BLKN_SUPER) 4) ≠ 0 := by
    rw [hsuper]
    omega
  have hwords : (mountedFreemap (deviceOf d img)).nwords = sfsFreemapBits s.ninos / WORD_BITS := by
    rw [← hsuper]
    rfl
  have hix : b / WORD_BITS < (mountedFreemap (deviceOf d img)).nwords := by
    rw [hwords, hbits, SFS_BLKBITS, WORD_BITS]
    rw [hbits, SFS_BLKBITS] at hb
    omega
  have hk : b / WORD_BITS / SFS_BLK_NENTRY < sfsFreemapBlocks s.ninos := by
    rw [hbits, SFS_BLKBITS] at hb
    rw [WORD_BITS, SFS_BLK_NENTRY]
    omega
  have hword : b / WORD_BITS % SFS_BLK_NENTRY = b % SFS_BLKBITS / WORD_BITS := by
    rw [WORD_BITS, SFS_BLK_NENTRY, SFS_BLKBITS]
    omega
  have hbit : b % WORD_BITS = b % SFS_BLKBITS % WORD_BITS := by
    rw [WORD_BITS, SFS_BLKBITS]
    omega
  have hsplit : b / WORD_BITS / SFS_BLK_NENTRY * SFS_BLKBITS + b % SFS_BLKBITS = b := by
    rw [WORD_BITS, SFS_BLK_NENTRY, SFS_BLKBITS]
    omega
  have hread : read32 (img (SFS_BLKN_FREEMAP + b / WORD_BITS / SFS_BLK_NENTRY))
      (4 * (b / WORD_BITS % SFS_BLK_NENTRY)) = (SfsFs.freemapData s.ninos s.nextIno
        (b / WORD_BITS / SFS_BLK_NENTRY * SFS_BLKBITS) (b / WORD_BITS % SFS_BLK_NENTRY)).toNat := by
    rw [himg.freemap _ hk]
    refine read32_words32 (f := fun ix => (SfsFs.freemapData s.ninos s.nextIno
      (b / WORD_BITS / SFS_BLK_NENTRY * SFS_BLKBITS) ix).toNat) (BitVec.isLt _) ?_
    intro l hl
    refine if_pos ?_
    rw [SFS_BLK_NENTRY, SFS_BLKSIZE]
    omega
  rw [Bitmap.bit, mountedFreemap_map hnbits hix]
  show (BitVec.ofNat 32 (read32 (img _) _)).getLsbD _ = _
  rw [hread, BitVec.ofNat_toNat, BitVec.setWidth_eq, hword, hbit,
    freemapData_bit (Nat.mod_lt _ (by decide)), hsplit]

/-- The file system that is mounted. -/
theorem ImageIs.fsOk (himg : ImageIs s use img) (hok : Ok s use) (hd : s.ninos ≤ d) :
    Mountable (deviceOf d img) ∧ FsOk (mounted (deviceOf d img)).fs := by
  obtain ⟨hmagic, hblocks, hunused⟩ := himg.storesSuper hok (d := d)
  obtain ⟨hpos, hcover, hbits⟩ := first_blocks hok
  have hfirst := hok.first_le
  have hsum := hok.unused
  have hmax := hok.max
  rw [SFS_MAX_NBLKS] at hmax
  have hnbits : (mountedFreemap (deviceOf d img)).nbits = sfsFreemapBits s.ninos :=
    congrArg sfsFreemapBits hblocks
  have hcount : (mountedFreemap (deviceOf d img)).count = s.unusedBlocks := by
    have hset : ((Finset.range (mountedFreemap (deviceOf d img)).nbits).filter fun i =>
        (mountedFreemap (deviceOf d img)).bit i = true) = Finset.Ico s.nextIno s.ninos := by
      ext b
      rw [Finset.mem_filter, Finset.mem_range, Finset.mem_Ico, hnbits]
      constructor
      · rintro ⟨hb, hfree⟩
        rw [himg.bit hok hb] at hfree
        exact of_decide_eq_true hfree
      · intro hb
        have hlt : b < sfsFreemapBits s.ninos := by omega
        refine ⟨hlt, ?_⟩
        rw [himg.bit hok hlt]
        exact decide_eq_true hb
    rw [Bitmap.count, hset, Nat.card_Ico]
    omega
  refine ⟨⟨rfl, hmagic, ?_, ?_, hcount.trans hunused.symm⟩, ⟨?_, ?_, ?_, ?_, ?_⟩⟩
  · rw [hblocks]
    exact hd
  · rw [hblocks]
    omega
  · show (mountedFreemap (deviceOf d img)).nbits = sfsFreemapBits _ / WORD_BITS * WORD_BITS
    rw [hnbits, hblocks, hbits, SFS_BLKBITS, WORD_BITS]
    omega
  · show read32 ((deviceOf d img).disk SFS_BLKN_SUPER) 4 ≤ (mountedFreemap (deviceOf d img)).nbits
    rw [hblocks, hnbits, hbits]
    exact hcover
  · exact read32_lt _ _
  · intro b hb hfree
    have hb' : b < sfsFreemapBits s.ninos := hnbits ▸ hb
    have hfree' : (mountedFreemap (deviceOf d img)).bit b = true := hfree
    rw [himg.bit hok hb'] at hfree'
    obtain ⟨hlow, hhigh⟩ := of_decide_eq_true hfree'
    rw [first_eq] at hfirst
    refine ⟨by omega, ?_⟩
    show b < read32 ((deviceOf d img).disk SFS_BLKN_SUPER) 4
    rw [hblocks]
    exact hhigh
  · show read32 ((deviceOf d img).disk SFS_BLKN_SUPER) 8 = (mountedFreemap (deviceOf d img)).count
    rw [hunused, hcount]

/-- What has been handed out is in use. -/
theorem ImageIs.inUse (himg : ImageIs s use img) (hok : Ok s use) {u : Use} (hc : s.Has use c u) :
    InUse (mounted (deviceOf d img)).fs c := by
  obtain ⟨hlow, hhigh, -⟩ := hc
  obtain ⟨hpos, hcover, hbits⟩ := first_blocks hok
  have hle := hok.le
  rw [first_eq] at hlow
  refine ⟨by omega, ?_, ?_⟩
  · show c < read32 ((deviceOf d img).disk SFS_BLKN_SUPER) 4
    rw [(himg.storesSuper hok).blocks]
    omega
  · show (mountedFreemap (deviceOf d img)).bit c = false
    rw [himg.bit hok (by omega)]
    exact decide_eq_false (by omega)

/-! ### The files -/

/-- What the kernel finds in the block of an inode. -/
structure Decodes (inode : Inode) (din : DiskInode) : Prop where
  size : inode.size < 2 ^ 32 → din.size = inode.size
  type : inode.type < 2 ^ 16 → din.type = inode.type
  blocks : inode.blocks < 2 ^ 32 → din.blocks = inode.blocks
  direct : ∀ k < SFS_NDIRECT, inode.direct k < 2 ^ 32 → din.direct k = inode.direct k
  indirect : inode.indirect < 2 ^ 32 → din.indirect = inode.indirect

theorem read16_words32 {m : Mem} {f : ℕ → ℕ} (h : ∀ k < 2, m (4 * i + k) = words32 f (4 * i + k)) :
    read16 m (4 * i) = f i % 2 ^ 16 := by
  have h₀ := h 0 (by decide)
  have h₁ := h 1 (by decide)
  rw [words32_word f (by decide)] at h₀ h₁
  rw [Nat.add_zero] at h₀
  rw [read16, h₀, h₁, bytes32, bytes32, UInt8.toNat_ofNat', UInt8.toNat_ofNat', pow_zero, Nat.div_one,
    pow_one]
  omega

theorem decodes_inodeBytes (inode : Inode) :
    Decodes inode (decodeInode (padded (SfsFs.inodeBytes inode) SfsFs.sizeofInode)) := by
  have hmem : ∀ w < 17, ∀ k < 4, padded (SfsFs.inodeBytes inode) SfsFs.sizeofInode (4 * w + k) =
      SfsFs.inodeBytes inode (4 * w + k) := by
    intro w hw k hk
    exact if_pos (by rw [SfsFs.sizeofInode]; omega)
  generalize padded (SfsFs.inodeBytes inode) SfsFs.sizeofInode = bytes at hmem
  refine ⟨?_, ?_, ?_, ?_, ?_⟩
  · intro hlt
    exact read32_words32 (i := 0) hlt (hmem 0 (by decide))
  · intro hlt
    have hword : read16 bytes (4 * 1) = (inode.type + 2 ^ 16 * inode.nlinks) % 2 ^ 16 :=
      read16_words32 fun k hk => hmem 1 (by decide) k (by omega)
    rw [Nat.add_mul_mod_self_left, Nat.mod_eq_of_lt hlt] at hword
    exact hword
  · intro hlt
    exact read32_words32 (i := 2) hlt (hmem 2 (by decide))
  · intro k hk hlt
    rw [SFS_NDIRECT] at hk
    have hfield : (if 3 + k = 0 then inode.size else if 3 + k = 1 then
        inode.type + 2 ^ 16 * inode.nlinks else if 3 + k = 2 then inode.blocks
        else if 3 + k < 3 + SFS_NDIRECT then inode.direct (3 + k - 3)
        else if 3 + k = 3 + SFS_NDIRECT then inode.indirect else inode.dbIndirect) =
          inode.direct k := by
      rw [if_neg (by omega), if_neg (by omega), if_neg (by omega),
        if_pos (by rw [SFS_NDIRECT]; omega), Nat.add_sub_cancel_left]
    refine (if_pos hk).trans ((read32_words32 ?_ (hmem (3 + k) (by omega))).trans hfield)
    rw [hfield]
    exact hlt
  · intro hlt
    exact read32_words32 (i := 15) hlt (hmem 15 (by decide))

/-- The inode of the file, as it is on the device. -/
theorem FileIs.decode (hf : FileIs s use f type ws) (himg : ImageIs s use img) (hi : s.IsInode f)
    (htype : type < 2 ^ 16) : (decodeInode (img f)).size = ws.flatten.length ∧
      (decodeInode (img f)).type = type ∧ (decodeInode (img f)).blocks = ws.length := by
  have hdec := decodes_inodeBytes (s.inode f).inode
  have htotal := length_flatten_le hf.chunk
  have hbound := hf.bound
  have hLN : SFS_LN_NBLKS = 32768 := rfl
  rw [SFS_BLKSIZE] at htotal
  rw [himg.inode f hi, hdec.size, hdec.type, hdec.blocks, hf.size, hf.type, hf.blocks]
  · exact ⟨rfl, rfl, rfl⟩
  · rw [hf.blocks]
    omega
  · rw [hf.type]
    exact htype
  · rw [hf.size]
    omega

/-- The blocks of the file, as the kernel finds them. -/
structure Found (s : SfsFs) (use : ℕ → Use) (f : ℕ) (fs : Fs) (din : DiskInode) (bs : List ℕ)
    (ws : List (List UInt8)) : Prop where
  length : bs.length = ws.length
  has : ∀ b ∈ bs, s.Has use b (.data f)
  nodup : bs.Nodup
  block : ∀ i < maxBlocks, blockAt fs din i = bs.getD i 0
  bytes : ∀ i < ws.length, ∀ k < SFS_BLKSIZE, fs.disk (bs.getD i 0) k = (ws.getD i []).getD k 0
  indirect : din.indirect ≠ 0 → s.Has use din.indirect (.table f)

theorem FileIs.found (hf : FileIs s use f type ws) (himg : ImageIs s use img) (hok : Ok s use)
    (hi : s.IsInode f) (hlen : ws.length ≤ maxBlocks) :
    ∃ bs, Found s use f (mounted (deviceOf d img)).fs (decodeInode (img f)) bs ws := by
  obtain ⟨bs, hlength, hm, hbytes⟩ := hf.mapped hlen
  have hdec := decodes_inodeBytes (s.inode f).inode
  have hrefs := hok.refs f hi
  rw [← himg.inode f hi] at hdec
  have hlt : ∀ i, bs.getD i 0 < 2 ^ 32 := by
    intro i
    by_cases hib : i < bs.length
    · rw [List.getD_eq_getElem _ _ hib]
      exact hok.lt (hm.data _ (List.getElem_mem _)).2.1
    · rw [List.getD_eq_default _ _ (Nat.not_lt.mp hib)]
      decide
  have hindirect : (decodeInode (img f)).indirect = (s.inode f).inode.indirect := by
    apply hdec.indirect
    by_cases hzero : (s.inode f).inode.indirect = 0
    · rw [hzero]
      decide
    · exact hok.lt (hrefs.indirect hzero).2.1
  refine ⟨bs, hlength, hm.data, hm.nodup, ?_, ?_, ?_⟩
  · intro i himax
    rw [blockAt]
    by_cases hdirect : i < SFS_NDIRECT
    · rw [if_pos hdirect, hdec.direct i hdirect, hm.direct i hdirect]
      rw [hm.direct i hdirect]
      exact hlt i
    · have hsum : SFS_NDIRECT + (i - SFS_NDIRECT) = i := by omega
      have hentry : i - SFS_NDIRECT < SFS_BLK_NENTRY := by
        rw [maxBlocks] at himax
        omega
      rw [if_neg hdirect, entryAt, hindirect]
      by_cases hzero : (s.inode f).inode.indirect = 0
      · have hshort := hm.indirect.mp hzero
        rw [if_pos hzero, List.getD_eq_default _ _ (by omega)]
      · have hread := hm.entries hzero _ hentry
        rw [hsum] at hread
        rw [if_neg hzero, ← hread, Nat.mul_comm]
        refine read32_congr fun k hk hk' => ?_
        show img (s.inode f).inode.indirect k = _
        rw [himg.table _ f (Or.inl (hrefs.indirect hzero))]
        refine if_pos ?_
        rw [SFS_BLKSIZE]
        rw [SFS_BLK_NENTRY] at hentry
        omega
  · intro i hiw k hk
    have hmem : bs.getD i 0 ∈ bs := by
      rw [List.getD_eq_getElem _ _ (by omega)]
      exact List.getElem_mem _
    show img _ k = _
    rw [himg.data _ f (hm.data _ hmem)]
    exact hbytes i hiw k hk
  · rw [hindirect]
    exact hrefs.indirect

/-- The file is well-formed for the kernel. -/
theorem Found.fileOk {din : DiskInode}
    (h : Found s use f (mounted (deviceOf d img)).fs din bs ws) (himg : ImageIs s use img)
    (hok : Ok s use) (hd : s.ninos ≤ d) (hblocks : din.blocks = ws.length)
    (hlen : ws.length ≤ maxBlocks) : FileOk (mounted (deviceOf d img)).fs din := by
  have hmem : ∀ i < bs.length, bs.getD i 0 ∈ bs := by
    intro i hi
    rw [List.getD_eq_getElem _ _ hi]
    exact List.getElem_mem _
  have hmapped : ∀ i < maxBlocks, blockAt (mounted (deviceOf d img)).fs din i ≠ 0 → i < bs.length := by
    intro i hi hne
    by_contra hge
    rw [h.block i hi, List.getD_eq_default _ _ (Nat.not_lt.mp hge)] at hne
    exact hne rfl
  refine ⟨(himg.fsOk hok hd).2, ⟨?_, ?_, ?_⟩, ?_, hblocks ▸ hlen⟩
  · intro i hi hne
    have hib := hmapped i hi hne
    rw [h.block i hi]
    exact himg.inUse hok (h.has _ (hmem i hib))
  · intro i hi j hj heq hne
    have hib := hmapped i hi hne
    have hjb := hmapped j hj (heq ▸ hne)
    rw [h.block i hi, h.block j hj, List.getD_eq_getElem _ _ hib, List.getD_eq_getElem _ _ hjb] at heq
    exact (h.nodup.getElem_inj_iff).mp heq
  · intro hne
    have htable := h.indirect hne
    refine ⟨himg.inUse hok htable, ?_⟩
    intro i hi heq
    have hib := hmapped i hi (heq ▸ hne)
    have hdata := (h.has _ (hmem i hib)).2.2
    rw [h.block i hi] at heq
    rw [heq, htable.2.2] at hdata
    exact nomatch hdata
  · intro i hi
    rw [hblocks] at hi
    have hib : i < bs.length := h.length ▸ hi
    rw [h.block i (by omega)]
    exact (himg.inUse hok (h.has _ (hmem i hib)) (d := d)).1

end Ucore.Mksfs
