import Ucore.Sfs.Ownership

/-!
# Inodes, super block and freemap as bytes (`lab8/kern/fs/sfs/sfs.h`)

The layout of `struct sfs_disk_inode` and `struct sfs_super` on the device, and of the freemap, which
is the array of words of its bitmap.  All numbers are little-endian.  `stores_encodeInode`,
`stores_encodeSuper` and `bitmapGetdata_word` say that what is written is read back.
-/

namespace Ucore.Sfs

open Memory

variable {fs fs' : Fs} {din din' : DiskInode} {mem mem' : Mem} {n k y : ℕ}

/-! ### Inodes -/

/-- `sizeof(struct sfs_disk_inode)`. -/
def sizeofDiskInode : ℕ := 64

/-- The bytes of a `struct sfs_disk_inode`. -/
def encodeInode (din : DiskInode) (nlinks : ℕ) : Mem := words32 fun w =>
  if w = 0 then din.size
  else if w = 1 then din.type + 2 ^ 16 * nlinks
  else if w = 2 then din.blocks
  else if w < 3 + SFS_NDIRECT then din.direct (w - 3)
  else din.indirect

def decodeInode (mem : Mem) : DiskInode where
  size := read32 mem 0
  type := read16 mem 4
  blocks := read32 mem 8
  direct k := if k < SFS_NDIRECT then read32 mem (4 * (3 + k)) else 0
  indirect := read32 mem 60

/-- The field `nlinks`. -/
def decodeLinks (mem : Mem) : ℕ := read16 mem 6

/-- Inodes with the same fields.  The array `direct` has `SFS_NDIRECT` elements. -/
structure SameInode (din din' : DiskInode) : Prop where
  size : din'.size = din.size
  type : din'.type = din.type
  blocks : din'.blocks = din.blocks
  direct : ∀ k < SFS_NDIRECT, din'.direct k = din.direct k
  indirect : din'.indirect = din.indirect

theorem SameInode.of_eq (h : din' = din) : SameInode din din' := by
  rw [h]
  exact ⟨rfl, rfl, rfl, fun _ _ => rfl, rfl⟩

/-- The bytes hold the inode. -/
structure StoresInode (mem : Mem) (din : DiskInode) (nlinks : ℕ) : Prop where
  same : SameInode din (decodeInode mem)
  links : decodeLinks mem = nlinks

theorem SameInode.blockAt (h : SameInode din din') (k : ℕ) : blockAt fs din' k = blockAt fs din k := by
  rw [Sfs.blockAt, Sfs.blockAt]
  by_cases hk : k < SFS_NDIRECT
  · rw [if_pos hk, if_pos hk, h.direct k hk]
  · rw [if_neg hk, if_neg hk, h.indirect]

theorem SameInode.owns (h : SameInode din din') (c : ℕ) : Owns fs din' c ↔ Owns fs din c := by
  simp only [Owns, h.blockAt, h.indirect]

theorem SameInode.byteAt (h : SameInode din din') : byteAt fs din' y = byteAt fs din y := by
  rw [Sfs.byteAt, Sfs.byteAt, h.blockAt]

theorem SameInode.fileOk (h : SameInode din din') (hf : FileOk fs din) : FileOk fs din' := by
  refine ⟨hf.ok, ⟨?_, ?_, ?_⟩, ?_, ?_⟩
  · intro k hk hne
    rw [h.blockAt] at hne ⊢
    exact hf.map.inUse k hk hne
  · intro k hk l hl heq hne
    rw [h.blockAt, h.blockAt] at heq
    rw [h.blockAt] at hne
    exact hf.map.inj k hk l hl heq hne
  · rw [h.indirect]
    intro hne
    refine ⟨(hf.map.indirect hne).1, ?_⟩
    intro k hk
    rw [h.blockAt]
    exact (hf.map.indirect hne).2 k hk
  · intro k hk
    rw [h.blocks] at hk
    rw [h.blockAt]
    exact hf.filled k hk
  · rw [h.blocks]
    exact hf.bound

/-- The fields fit their sizes. -/
structure FitsInode (din : DiskInode) (nlinks : ℕ) : Prop where
  size : din.size < 2 ^ 32
  type : din.type < 2 ^ 16
  links : nlinks < 2 ^ 16
  blocks : din.blocks < 2 ^ 32
  direct : ∀ k < SFS_NDIRECT, din.direct k < 2 ^ 32
  indirect : din.indirect < 2 ^ 32

/-- **An inode is read back as it was written.** -/
theorem stores_encodeInode (h : FitsInode din n) :
    StoresInode (memcpy mem 0 (encodeInode din n) sizeofDiskInode) din n := by
  have hmem : ∀ w < 16, ∀ k < 4, memcpy mem 0 (encodeInode din n) sizeofDiskInode (4 * w + k) =
      encodeInode din n (4 * w + k) := by
    intro w hw k hk
    rw [memcpy_of_mem (Nat.zero_le _) (by rw [sizeofDiskInode]; omega), Nat.sub_zero]
  generalize memcpy mem 0 (encodeInode din n) sizeofDiskInode = bytes at hmem
  have hword : read32 bytes 4 = din.type + 2 ^ 16 * n := by
    have htype := h.type
    have hlinks := h.links
    refine read32_words32 (i := 1) ?_ (hmem 1 (by decide))
    rw [if_neg (by decide), if_pos rfl]
    omega
  obtain ⟨hlow, hhigh⟩ := read16_eq_read32 bytes 4
  have htype := h.type
  refine ⟨⟨?_, ?_, ?_, ?_, ?_⟩, ?_⟩
  · exact read32_words32 (i := 0) h.size (hmem 0 (by decide))
  · show read16 bytes 4 = din.type
    rw [hlow, hword]
    omega
  · exact read32_words32 (i := 2) h.blocks (hmem 2 (by decide))
  · intro k hk
    rw [SFS_NDIRECT] at hk
    have hfield : (if 3 + k = 0 then din.size else if 3 + k = 1 then din.type + 2 ^ 16 * n
        else if 3 + k = 2 then din.blocks else if 3 + k < 3 + SFS_NDIRECT then din.direct (3 + k - 3)
        else din.indirect) = din.direct k := by
      rw [if_neg (by omega), if_neg (by omega), if_neg (by omega),
        if_pos (by rw [SFS_NDIRECT]; omega), Nat.add_sub_cancel_left]
    refine (if_pos hk).trans ((read32_words32 ?_ (hmem (3 + k) (by omega))).trans hfield)
    rw [hfield]
    exact h.direct k hk
  · exact read32_words32 (i := 15) h.indirect (hmem 15 (by decide))
  · show read16 bytes 6 = n
    rw [hhigh, hword]
    omega

/-! ### The super block and the freemap -/

def SFS_MAX_INFO_LEN : ℕ := 31

/-- `sizeof(struct sfs_super)`. -/
def sizeofSuper : ℕ := 44

/-- The bytes of a `struct sfs_super`. -/
def encodeSuper (magic blocks unusedBlocks : ℕ) (info : Mem) : Mem := fun a =>
  if a < 12 then words32 (fun w => if w = 0 then magic else if w = 1 then blocks else unusedBlocks) a
  else info (a - 12)

/-- The bytes hold the super block. -/
structure StoresSuper (mem : Mem) (magic blocks unusedBlocks : ℕ) : Prop where
  magic : read32 mem 0 = magic
  blocks : read32 mem 4 = blocks
  unused : read32 mem 8 = unusedBlocks

theorem stores_encodeSuper {magic blocks unusedBlocks : ℕ} (info : Mem) (hm : magic < 2 ^ 32)
    (hb : blocks < 2 ^ 32) (hu : unusedBlocks < 2 ^ 32)
    (h : ∀ a < 12, mem a = encodeSuper magic blocks unusedBlocks info a) :
    StoresSuper mem magic blocks unusedBlocks := by
  have hmem : ∀ w < 3, ∀ k < 4, mem (4 * w + k) = words32
      (fun w => if w = 0 then magic else if w = 1 then blocks else unusedBlocks) (4 * w + k) := by
    intro w hw k hk
    rw [h _ (by omega), encodeSuper, if_pos (by omega)]
  constructor
  · exact read32_words32 (i := 0) hm (hmem 0 (by decide))
  · exact read32_words32 (i := 1) hb (hmem 1 (by decide))
  · exact read32_words32 (i := 2) hu (hmem 2 (by decide))

/-- `bitmap_getdata`: the words of the bitmap. -/
def bitmapGetdata (b : Bitmap) : Mem := words32 fun ix => (b.map ix).toNat

theorem bitmapGetdata_word (b : Bitmap) (ix : ℕ) (hk : k < 4) :
    bitmapGetdata b (4 * ix + k) = bytes32 (b.map ix).toNat k := words32_word _ hk

end Ucore.Sfs
