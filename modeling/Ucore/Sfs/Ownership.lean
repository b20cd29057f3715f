import Ucore.Lib.Transition
import Ucore.Sfs.Calls

/-!
# Every block in use has one owner

`Image.call` is a call on one of the inodes of a mounted file system.
`Ownership` states who owns a block by the places that may hold its number (`Slot`): a freemap bit is
clear exactly for the super block, the freemap and the blocks in exactly one place, and the counter is
the number of set bits.

Alone it is not kept.  An image may hold numbers that no run of the file system puts there: a gap
below `blocks`, an entry of the indirect block behind `blocks`, a set bit behind the last block, the
number of a block of the freemap.  **`ownership_holds`**: from every `WellFormed` image, where there is
none of these, ownership holds in every state that is reached, and no check of `sfs_block_inuse` fails.
**`ownership_is_not_kept`** has a call that goes wrong for each of them.
-/

namespace Ucore.Sfs

open Memory Relation

variable {ι : Type} {fs fs' : Fs} {sin sin' : Inode} {b c i k : ℕ} {j l : ι}

/-- A call on inode `j`. -/
inductive Call (ι : Type)
  | write (j : ι) (buf : Mem) (offset : ℤ) (len : UInt64)
  | truncfile (j : ι) (len : ℤ)
  | bmapLoad (j : ι) (index : ℕ)
  | bmapTruncate (j : ι)

def Call.target : Call ι → ι
  | .write j .. => j
  | .truncfile j _ => j
  | .bmapLoad j _ => j
  | .bmapTruncate j => j

/-- What a call does to the file system and the inode. -/
def Call.run (fs : Fs) (sin : Inode) : Call ι → Except Panic (Fs × Inode)
  | .write _ buf offset len => do
    let io ← sfsIoNolock fs sin buf offset len.toNat true
    .ok (io.fs, io.sin)
  | .truncfile _ len => do
    let (_, fs, sin) ← sfsTruncfile fs sin len
    .ok (fs, sin)
  | .bmapLoad _ index => do
    let (_, fs, sin) ← sfsBmapLoad fs sin index
    .ok (fs, sin)
  | .bmapTruncate _ => sfsBmapTruncate fs sin

def Image.call [DecidableEq ι] (s : Image ι) (c : Call ι) : Except Panic (Image ι) := do
  let (fs, sin) ← c.run s.fs (s.inode c.target)
  .ok (s.set c.target fs sin)

/-! ### Owners -/

def SFS_BLKN_SUPER : ℕ := 0

def SFS_BLKN_FREEMAP : ℕ := 2

def SFS_BLKBITS : ℕ := 4096 * 8

/-- The blocks of the freemap, after `sfs_freemap_blocks`. -/
def IsFreemapBlock (fs : Fs) (b : ℕ) : Prop :=
  SFS_BLKN_FREEMAP ≤ b ∧ b < SFS_BLKN_FREEMAP + (fs.blocks + SFS_BLKBITS - 1) / SFS_BLKBITS

/-- A place that may hold the number of a block; 0 stands for none.  An entry of the indirect block is
given by its logical index. -/
inductive Slot (ι : Type)
  | inode (j : ι)
  | direct (j : ι) (k : ℕ)
  | indirect (j : ι)
  | entry (j : ι) (k : ℕ)

/-- Only the entries below `blocks` count. -/
def Slot.Valid (s : Image ι) : Slot ι → Prop
  | .inode _ => True
  | .direct _ k => k < SFS_NDIRECT
  | .indirect _ => True
  | .entry j k => SFS_NDIRECT ≤ k ∧ k < maxBlocks ∧ k < (s.inode j).din.blocks

def Slot.block (s : Image ι) : Slot ι → ℕ
  | .inode j => (s.inode j).ino
  | .direct j k => (s.inode j).din.direct k
  | .indirect j => (s.inode j).din.indirect
  | .entry j k => entryAt s.fs (s.inode j).din.indirect (k - SFS_NDIRECT)

/-- **Ownership.** -/
structure Ownership (s : Image ι) : Prop where
  bits : ∀ b < s.fs.blocks, s.fs.free b = false ↔
    b = SFS_BLKN_SUPER ∨ IsFreemapBlock s.fs b ∨ ∃! t : Slot ι, t.Valid s ∧ t.block s = b
  once : ∀ t u : Slot ι, t.Valid s → u.Valid s → t.block s = u.block s → t.block s ≠ 0 → t = u
  unused : s.fs.unusedBlocks = s.fs.freemap.count

/-- The sizes that `sfs_do_mount` sets up. -/
structure Mounted (fs : Fs) : Prop where
  words : fs.freemap.nbits = fs.freemap.nwords * WORD_BITS
  covers : fs.blocks ≤ fs.freemap.nbits
  small : fs.blocks < 2 ^ 32

/-- No stray numbers in the image. -/
structure WellFormed (s : Image ι) : Prop where
  padding : ∀ b < s.fs.freemap.nbits, s.fs.blocks ≤ b → s.fs.free b = false
  inRange : ∀ t : Slot ι, t.Valid s → t.block s ≠ 0 →
    t.block s < s.fs.blocks ∧ ¬ IsFreemapBlock s.fs (t.block s)
  filled : ∀ j, ∀ k < (s.inode j).din.blocks, k < maxBlocks ∧ blockAt s.fs (s.inode j).din k ≠ 0
  tail : ∀ j k, SFS_NDIRECT ≤ k → (s.inode j).din.blocks ≤ k → k < maxBlocks →
    entryAt s.fs (s.inode j).din.indirect (k - SFS_NDIRECT) = 0

/-! ### The invariant -/

/-- The entries of the indirect block behind the end of the file are empty. -/
def TailEmpty (fs : Fs) (din : DiskInode) : Prop :=
  ∀ k < maxBlocks, SFS_NDIRECT ≤ k → din.blocks ≤ k → blockAt fs din k = 0

/-- Ownership and well-formedness, in terms of the block maps. -/
structure Inv (s : Image ι) : Prop where
  ok : FsOk s.fs
  file : ∀ j, FileOk s.fs (s.inode j).din
  tail : ∀ j, TailEmpty s.fs (s.inode j).din
  apart : ∀ j l c, Owns s.fs (s.inode j).din c → Owns s.fs (s.inode l).din c → j = l
  inoInUse : ∀ j, (s.inode j).ino ≠ 0 → InUse s.fs (s.inode j).ino
  inoApart : ∀ j l, ¬ Owns s.fs (s.inode l).din (s.inode j).ino
  inoInj : ∀ j l, (s.inode j).ino = (s.inode l).ino → (s.inode j).ino ≠ 0 → j = l
  inoMeta : ∀ j, (s.inode j).ino ≠ 0 → ¬ IsFreemapBlock s.fs (s.inode j).ino
  freemap : ∀ b, IsFreemapBlock s.fs b → b < s.fs.blocks → s.fs.free b = false
  mapMeta : ∀ j b, Owns s.fs (s.inode j).din b → ¬ IsFreemapBlock s.fs b
  bits : ∀ b, InUse s.fs b →
    IsFreemapBlock s.fs b ∨ ∃ j, b = (s.inode j).ino ∨ Owns s.fs (s.inode j).din b

/-- The place for block `k` of the file. -/
def slotOf (j : ι) (k : ℕ) : Slot ι := if k < SFS_NDIRECT then .direct j k else .entry j k

theorem slotOf_inj (h : slotOf j i = slotOf l k) : j = l ∧ i = k := by
  rw [slotOf, slotOf] at h
  by_cases hi : i < SFS_NDIRECT
  · by_cases hk : k < SFS_NDIRECT
    · rw [if_pos hi, if_pos hk] at h
      injection h with h₁ h₂
      exact ⟨h₁, h₂⟩
    · rw [if_pos hi, if_neg hk] at h
      injection h
  · by_cases hk : k < SFS_NDIRECT
    · rw [if_neg hi, if_pos hk] at h
      injection h
    · rw [if_neg hi, if_neg hk] at h
      injection h with h₁ h₂
      exact ⟨h₁, h₂⟩

theorem slotOf_ne_indirect : slotOf j k ≠ .indirect l := by
  rw [slotOf]
  split <;> intro h <;> injection h

theorem slotOf_ne_inode : slotOf j k ≠ .inode l := by
  rw [slotOf]
  split <;> intro h <;> injection h

theorem slotOf_block (s : Image ι) : (slotOf j k).block s = blockAt s.fs (s.inode j).din k := by
  rw [slotOf, blockAt]
  by_cases hd : k < SFS_NDIRECT
  · rw [if_pos hd, if_pos hd]
    rfl
  · rw [if_neg hd, if_neg hd]
    rfl

/-- A mapped block is in a valid place. -/
theorem slotOf_valid {s : Image ι} (htail : TailEmpty s.fs (s.inode j).din) (hk : k < maxBlocks)
    (hne : blockAt s.fs (s.inode j).din k ≠ 0) : (slotOf j k).Valid s := by
  rw [slotOf]
  by_cases hd : k < SFS_NDIRECT
  · rw [if_pos hd]
    exact hd
  · rw [if_neg hd]
    have hge := Nat.not_lt.mp hd
    refine ⟨hge, hk, ?_⟩
    by_contra hend
    exact hne (htail k hk hge (Nat.not_lt.mp hend))

/-- The valid places: an inode block, an indirect block, or the place of a block of a file. -/
theorem Slot.Valid.cases {s : Image ι} {t : Slot ι} (h : t.Valid s) :
    (∃ j, t = .inode j) ∨ (∃ j, t = .indirect j) ∨ ∃ j, ∃ k < maxBlocks, t = slotOf j k := by
  cases t with
  | inode j => exact Or.inl ⟨j, rfl⟩
  | indirect j => exact Or.inr (Or.inl ⟨j, rfl⟩)
  | direct j k =>
    have hk : k < SFS_NDIRECT := h
    refine Or.inr (Or.inr ⟨j, k, ?_, (if_pos hk).symm⟩)
    rw [maxBlocks]
    omega
  | entry j k => exact Or.inr (Or.inr ⟨j, k, h.2.1, (if_neg (Nat.not_lt.mpr h.1)).symm⟩)

/-- **The invariant holds in a well-formed image with ownership.** -/
theorem Inv.of_ownership {s : Image ι} (hm : Mounted s.fs) (ho : Ownership s) (hw : WellFormed s) :
    Inv s := by
  have htail : ∀ j, TailEmpty s.fs (s.inode j).din := by
    intro j k hk hge hend
    exact (if_neg (Nat.not_lt.mpr hge)).trans (hw.tail j k hge hend hk)
  have hinUse : ∀ t : Slot ι, t.Valid s → t.block s ≠ 0 → InUse s.fs (t.block s) := by
    intro t ht hne
    obtain ⟨hlt, -⟩ := hw.inRange t ht hne
    refine ⟨hne, hlt, (ho.bits _ hlt).mpr (Or.inr (Or.inr ⟨t, ⟨ht, rfl⟩, ?_⟩))⟩
    intro u hu
    exact ho.once u t hu.1 ht hu.2 (hu.2 ▸ hne)
  have hok : FsOk s.fs := by
    refine ⟨hm.words, hm.covers, hm.small, ?_, ho.unused⟩
    intro b hb hfree
    have hlt : b < s.fs.blocks := by
      by_contra hge
      exact Bool.false_ne_true ((hw.padding b hb (Nat.not_lt.mp hge)).symm.trans hfree)
    refine ⟨?_, hlt⟩
    rintro rfl
    exact Bool.false_ne_true (((ho.bits 0 hlt).mpr (Or.inl rfl)).symm.trans hfree)
  -- every block of a map is in a valid place of this inode, other than the inode block
  have hslot : ∀ j c, Owns s.fs (s.inode j).din c → ∃ t : Slot ι, t.Valid s ∧ t.block s = c ∧
      (t = .indirect j ∨ ∃ k, t = slotOf j k) := by
    intro j c h
    obtain ⟨hc, rfl | ⟨k, hk, rfl⟩⟩ := h
    · exact ⟨.indirect j, trivial, rfl, Or.inl rfl⟩
    · exact ⟨slotOf j k, slotOf_valid (htail j) hk hc, slotOf_block s, Or.inr ⟨k, rfl⟩⟩
  have hfile : ∀ j, FileOk s.fs (s.inode j).din := by
    intro j
    refine ⟨hok, ⟨?_, ?_, ?_⟩, fun k hk => (hw.filled j k hk).2, ?_⟩
    · intro k hk hne
      rw [← slotOf_block] at hne ⊢
      exact hinUse _ (slotOf_valid (htail j) hk (by rwa [slotOf_block] at hne)) hne
    · intro i hi k hk heq hne
      have hne' := heq ▸ hne
      have hsame := ho.once (slotOf j i) (slotOf j k) (slotOf_valid (htail j) hi hne)
        (slotOf_valid (htail j) hk hne') (by rw [slotOf_block, slotOf_block, heq])
        (by rwa [slotOf_block])
      exact (slotOf_inj hsame).2
    · intro hne
      refine ⟨hinUse (.indirect j) trivial hne, ?_⟩
      intro k hk heq
      have hne' : blockAt s.fs (s.inode j).din k ≠ 0 := heq ▸ hne
      refine slotOf_ne_indirect (ho.once (slotOf j k) (.indirect j) (slotOf_valid (htail j) hk hne')
        trivial (by rw [slotOf_block]; exact heq) (by rwa [slotOf_block]))
    · by_contra hgt
      exact Nat.lt_irrefl _ (hw.filled j maxBlocks (Nat.not_le.mp hgt)).1
  refine ⟨hok, hfile, htail, ?_, ?_, ?_, ?_, ?_, ?_, ?_, ?_⟩
  · intro j l c hj hl
    obtain ⟨t, ht, htc, htj⟩ := hslot j c hj
    obtain ⟨u, hu, huc, hul⟩ := hslot l c hl
    have hsame := ho.once t u ht hu (htc.trans huc.symm) (htc ▸ hj.1)
    rcases htj with rfl | ⟨k, rfl⟩
    · rcases hul with rfl | ⟨k', rfl⟩
      · injection hsame
      · exact absurd hsame.symm slotOf_ne_indirect
    · rcases hul with rfl | ⟨k', rfl⟩
      · exact absurd hsame slotOf_ne_indirect
      · exact (slotOf_inj hsame).1
  · intro j hne
    exact hinUse (.inode j) trivial hne
  · intro j l h
    obtain ⟨t, ht, htc, htl⟩ := hslot l _ h
    have hsame := ho.once t (.inode j) ht trivial htc (htc ▸ h.1)
    rcases htl with rfl | ⟨k, rfl⟩
    · injection hsame
    · exact slotOf_ne_inode hsame
  · intro j l heq hne
    have hsame := ho.once (.inode j) (.inode l) trivial trivial heq hne
    injection hsame
  · intro j hne
    exact (hw.inRange (.inode j) trivial hne).2
  · intro b hb hlt
    exact (ho.bits b hlt).mpr (Or.inr (Or.inl hb))
  · intro j b h
    obtain ⟨t, ht, rfl, -⟩ := hslot j b h
    exact (hw.inRange t ht h.1).2
  · intro b hb
    rcases (ho.bits b hb.2.1).mp hb.2.2 with h0 | hmeta | ⟨t, ⟨ht, htb⟩, -⟩
    · exact absurd h0 hb.1
    · exact Or.inl hmeta
    · right
      rcases ht.cases with ⟨j, rfl⟩ | ⟨j, rfl⟩ | ⟨j, k, hk, rfl⟩
      · exact ⟨j, Or.inl htb.symm⟩
      · exact ⟨j, Or.inr ⟨hb.1, Or.inl htb.symm⟩⟩
      · exact ⟨j, Or.inr ⟨hb.1, Or.inr ⟨k, hk, slotOf_block s ▸ htb⟩⟩⟩

/-- The owner of a valid place that is not an inode block. -/
theorem owns_indirect {s : Image ι} (hne : (s.inode j).din.indirect ≠ 0) :
    Owns s.fs (s.inode j).din (s.inode j).din.indirect := ⟨hne, Or.inl rfl⟩

/-- **The invariant gives ownership.** -/
theorem Inv.ownership {s : Image ι} (h : Inv s) : Ownership s := by
  have honce : ∀ t u : Slot ι, t.Valid s → u.Valid s → t.block s = u.block s → t.block s ≠ 0 →
      t = u := by
    intro t u ht hu heq hne
    have hne' := heq ▸ hne
    rcases ht.cases with ⟨j, rfl⟩ | ⟨j, rfl⟩ | ⟨j, k, hk, rfl⟩
    · rcases hu.cases with ⟨l, rfl⟩ | ⟨l, rfl⟩ | ⟨l, i, hi, rfl⟩
      · rw [h.inoInj j l heq hne]
      · refine absurd ?_ (h.inoApart j l)
        have hown := owns_indirect (s := s) hne'
        rwa [show (s.inode l).din.indirect = (s.inode j).ino from heq.symm] at hown
      · rw [slotOf_block] at heq hne'
        have hown := owns_blockAt hi hne'
        rw [← heq] at hown
        exact absurd hown (h.inoApart j l)
    · rcases hu.cases with ⟨l, rfl⟩ | ⟨l, rfl⟩ | ⟨l, i, hi, rfl⟩
      · refine absurd ?_ (h.inoApart l j)
        have hown := owns_indirect (s := s) hne
        rwa [show (s.inode j).din.indirect = (s.inode l).ino from heq] at hown
      · have hown := owns_indirect (s := s) hne'
        rw [show (s.inode l).din.indirect = (s.inode j).din.indirect from heq.symm] at hown
        rw [h.apart j l _ (owns_indirect hne) hown]
      · rw [slotOf_block] at heq hne'
        have hown := owns_blockAt hi hne'
        rw [← heq] at hown
        have hjl := h.apart j l _ (owns_indirect hne) hown
        subst hjl
        exact absurd heq.symm (((h.file j).map.indirect hne).2 i hi)
    · rw [slotOf_block] at heq hne
      have hown := owns_blockAt hk hne
      rcases hu.cases with ⟨l, rfl⟩ | ⟨l, rfl⟩ | ⟨l, i, hi, rfl⟩
      · rw [heq] at hown
        exact absurd hown (h.inoApart l j)
      · rw [heq] at hown
        have hjl := h.apart j l _ hown (owns_indirect hne')
        subst hjl
        exact absurd heq (((h.file j).map.indirect hne').2 k hk)
      · rw [slotOf_block] at heq hne'
        rw [heq] at hown
        have hjl := h.apart j l _ hown (owns_blockAt hi hne')
        subst hjl
        rw [(h.file j).map.inj k hk i hi heq hne]
  refine ⟨?_, honce, h.ok.unused⟩
  intro b hb
  have hpos : 0 < s.fs.blocks := by omega
  constructor
  · intro hfree
    by_cases h0 : b = 0
    · exact Or.inl h0
    · right
      have huniq : ∀ t : Slot ι, t.Valid s → t.block s = b →
          ∃! t : Slot ι, t.Valid s ∧ t.block s = b := by
        intro t ht htb
        refine ⟨t, ⟨ht, htb⟩, ?_⟩
        intro u hu
        exact honce u t hu.1 ht (hu.2.trans htb.symm) (hu.2 ▸ h0)
      rcases h.bits b ⟨h0, hb, hfree⟩ with hmeta | ⟨j, rfl | hown⟩
      · exact Or.inl hmeta
      · exact Or.inr (huniq (.inode j) trivial rfl)
      · obtain ⟨-, rfl | ⟨k, hk, rfl⟩⟩ := hown
        · exact Or.inr (huniq (.indirect j) trivial rfl)
        · exact Or.inr (huniq (slotOf j k) (slotOf_valid (h.tail j) hk h0) (slotOf_block s))
  · intro hcase
    rcases hcase with h0 | hmeta | ⟨t, ⟨ht, rfl⟩, -⟩
    · rw [h0]
      exact not_free_zero h.ok hpos
    · exact h.freemap b hmeta hb
    · by_cases h0 : t.block s = 0
      · rw [h0]
        exact not_free_zero h.ok hpos
      · rcases ht.cases with ⟨j, rfl⟩ | ⟨j, rfl⟩ | ⟨j, k, hk, rfl⟩
        · exact (h.inoInUse j h0).2.2
        · exact ((h.file j).map.inUse_of_owns (owns_indirect h0)).2.2
        · rw [slotOf_block] at h0 ⊢
          exact ((h.file j).map.inUse k hk h0).2.2

/-! ### Steps -/

/-- What a call does to its inode, when it returns. -/
structure Changes (fs : Fs) (sin : Inode) (fs' : Fs) (sin' : Inode) : Prop where
  priv : Private fs sin.din fs' sin'.din
  file : FileOk fs' sin'.din
  tail : TailEmpty fs' sin'.din
  ino : sin'.ino = sin.ino

theorem Changes.refl (hfile : FileOk fs sin.din) (htail : TailEmpty fs sin.din) :
    Changes fs sin fs sin :=
  ⟨Private.refl hfile.ok hfile.map, hfile, htail, rfl⟩

/-- The result of a call: the inode is changed as above, or the call stops, but not in
`sfs_block_inuse`. -/
def Safe (fs : Fs) (sin : Inode) (x : Except Panic (Fs × Inode)) : Prop :=
  (∃ fs' sin', x = .ok (fs', sin') ∧ Changes fs sin fs' sin') ∨ ∃ p, x = .error p ∧ p ≠ .blockInuse

theorem TailEmpty.of_rest {din' din : DiskInode} (h : TailEmpty fs din)
    (hle : din.blocks ≤ din'.blocks)
    (hrest : ∀ k < maxBlocks, din'.blocks ≤ k → blockAt fs' din' k = blockAt fs din k) :
    TailEmpty fs' din' := by
  intro k hk hge hend
  rw [hrest k hk hend]
  exact h k hk hge (hle.trans hend)

theorem safe_write (hfile : FileOk fs sin.din) (htail : TailEmpty fs sin.din) (buf : Mem)
    (offset : ℤ) (len : UInt64) : Safe fs sin (Call.run fs sin (.write j buf offset len)) := by
  show Safe fs sin (sfsIoNolock fs sin buf offset len.toNat true >>= _)
  by_cases hty : sin.din.type ≠ SFS_TYPE_DIR
  · have hcall := sfsIoNolock_call buf true offset hty hfile len.toNat_lt
    generalize sfsIoNolock fs sin buf offset len.toNat true = x at hcall
    cases hcall with
    | refused => exact Or.inl ⟨_, _, rfl, Changes.refl hfile htail⟩
    | nothing => exact Or.inl ⟨_, _, rfl, Changes.refl hfile htail⟩
    | moves _ _ _ _ _ hout =>
      cases hout with
      | hole => exact Or.inr ⟨_, rfl, by decide⟩
      | outOfRange => exact Or.inr ⟨_, rfl, by decide⟩
      | all hstart ht =>
        have hnb := ht.nblocks
        exact Or.inl ⟨_, _, rfl, ht.priv, ht.file, htail.of_rest (by omega) ht.rest, ht.ino⟩
      | full hstart ht =>
        have hnb := ht.nblocks
        exact Or.inl ⟨_, _, rfl, ht.priv, ht.file, htail.of_rest (by omega) ht.rest, ht.ino⟩
  · rw [sfsIoNolock, ensure_neg hty, error_bind, error_bind]
    exact Or.inr ⟨_, rfl, by decide⟩

theorem safe_truncfile (hfile : FileOk fs sin.din) (htail : TailEmpty fs sin.din) (len : ℤ) :
    Safe fs sin (Call.run fs sin (.truncfile j len)) := by
  show Safe fs sin (sfsTruncfile fs sin len >>= _)
  have hcall := sfsTruncfile_call len hfile
  generalize sfsTruncfile fs sin len = x at hcall
  cases hcall with
  | refused => exact Or.inl ⟨_, _, rfl, Changes.refl hfile htail⟩
  | resizes _ _ hout =>
    cases hout with
    | same => exact Or.inl ⟨_, _, rfl, Changes.refl hfile htail⟩
    | mismatch => exact Or.inr ⟨_, rfl, by decide⟩
    | outOfRange => exact Or.inr ⟨_, rfl, by decide⟩
    | resized hsize hr =>
      refine Or.inl ⟨_, _, rfl, hr.priv, hr.file, ?_, hr.ino⟩
      intro k hk hge hend
      rw [hr.nblocks] at hend
      by_cases hcut : k < sin.din.blocks
      · exact hr.cut k hk hend hcut
      · rw [hr.rest k hk (by omega)]
        exact htail k hk hge (by omega)
    | full hsize hr =>
      have hnb := hr.nblocks
      exact Or.inl ⟨_, _, rfl, hr.priv, hr.fileOk, htail.of_rest (by omega) hr.rest, hr.ino⟩

theorem safe_bmapLoad (hfile : FileOk fs sin.din) (htail : TailEmpty fs sin.din) (index : ℕ) :
    Safe fs sin (Call.run fs sin (.bmapLoad j index)) := by
  show Safe fs sin (sfsBmapLoad fs sin index >>= _)
  by_cases hle : index ≤ sin.din.blocks
  · by_cases hi : index < maxBlocks
    · rcases sfsBmapLoad_spec hfile.ok hfile.map hi hle (hfile.filled index) with
        ⟨fs', heq, hfail, -, -⟩ | ⟨b, fs', sin', heq, hl, -⟩
      · have hr := (Reaches.refl hfile (index + 1)).fails hfail
        rw [heq, ok_bind]
        exact Or.inl ⟨_, _, rfl, hr.priv, hr.fileOk, htail.of_rest (Nat.le_refl _) hr.rest, rfl⟩
      · have hr := (Reaches.refl hfile (index + 1)).load hl hle (Nat.lt_succ_self _) hi
        have hnb := hr.nblocks
        rw [heq, ok_bind]
        exact Or.inl ⟨_, _, rfl, hr.priv, hr.fileOk, htail.of_rest (by omega) hr.rest, hr.ino⟩
    · rw [sfsBmapLoad_out (Nat.not_lt.mp hi) hle, error_bind]
      exact Or.inr ⟨_, rfl, by decide⟩
  · rw [sfsBmapLoad_hole (Nat.not_le.mp hle), error_bind]
    exact Or.inr ⟨_, rfl, by decide⟩

theorem safe_bmapTruncate (hfile : FileOk fs sin.din) (htail : TailEmpty fs sin.din) :
    Safe fs sin (Call.run fs sin (.bmapTruncate j)) := by
  show Safe fs sin (sfsBmapTruncate fs sin)
  by_cases hpos : sin.din.blocks ≠ 0
  · obtain ⟨fs', sin', heq, hs⟩ := sfsBmapTruncate_spec hfile hpos
    refine Or.inl ⟨fs', sin', heq, hs.priv, hs.file, ?_, hs.ino⟩
    intro k hk hge hend
    have hnb := hs.nblocks
    rw [hs.map k hk]
    by_cases hcut : sin.din.blocks - 1 ≤ k ∧ k < sin.din.blocks
    · rw [if_pos hcut]
    · rw [if_neg hcut]
      exact htail k hk hge (by omega)
  · rw [sfsBmapTruncate, ensure_neg hpos, error_bind]
    exact Or.inr ⟨_, rfl, by decide⟩

/-- **Every call** changes its own inode only, and no check of `sfs_block_inuse` fails. -/
theorem Call.safe (c : Call ι) (hfile : FileOk fs sin.din) (htail : TailEmpty fs sin.din) :
    Safe fs sin (c.run fs sin) := by
  cases c with
  | write j buf offset len => exact safe_write hfile htail buf offset len
  | truncfile j len => exact safe_truncfile hfile htail len
  | bmapLoad j index => exact safe_bmapLoad hfile htail index
  | bmapTruncate j => exact safe_bmapTruncate hfile htail

section

variable [DecidableEq ι] {s s' s₀ : Image ι}

theorem Inv.update (h : Inv s) (hc : Changes s.fs (s.inode j) fs' sin') :
    Inv (s.set j fs' sin') := by
  rw [Image.set]
  have hother : ∀ l, l ≠ j → Untouched s.fs fs' sin'.din (s.inode l).din := by
    intro l hl
    refine hc.priv.untouched (h.file l) ?_
    intro b hb hb'
    exact hl (h.apart l j b hb hb')
  have hself : Function.update s.inode j sin' j = sin' := Function.update_self _ _ _
  have hne : ∀ {l}, l ≠ j → Function.update s.inode j sin' l = s.inode l :=
    fun hl => Function.update_of_ne hl _ _
  have hino : ∀ l, (Function.update s.inode j sin' l).ino = (s.inode l).ino := by
    intro l
    by_cases hl : l = j
    · rw [hl, hself, hc.ino]
    · rw [hne hl]
  have hmeta : ∀ b, IsFreemapBlock fs' b ↔ IsFreemapBlock s.fs b := by
    intro b
    rw [IsFreemapBlock, IsFreemapBlock, hc.priv.blocks]
  -- the blocks of the inode after the call: blocks that it had, or blocks that were free
  have hfresh : ∀ b, Owns fs' sin'.din b → InUse s.fs b → Owns s.fs (s.inode j).din b := by
    intro b hb hin
    by_contra hn
    exact (hc.priv.keeps b hin hn).2.1 hb
  have hinoKeep : ∀ l, (s.inode l).ino ≠ 0 →
      InUse fs' (s.inode l).ino ∧ ¬ Owns fs' sin'.din (s.inode l).ino := by
    intro l h0
    obtain ⟨h₁, h₂, -⟩ := hc.priv.keeps _ (h.inoInUse l h0) (h.inoApart l j)
    exact ⟨h₁, h₂⟩
  refine ⟨hc.priv.ok, ?_, ?_, ?_, ?_, ?_, ?_, ?_, ?_, ?_, ?_⟩
  · intro l
    by_cases hl : l = j
    · show FileOk fs' (Function.update s.inode j sin' l).din
      rw [hl, hself]
      exact hc.file
    · show FileOk fs' (Function.update s.inode j sin' l).din
      rw [hne hl]
      exact (hother l hl).file
  · intro l
    show TailEmpty fs' (Function.update s.inode j sin' l).din
    by_cases hl : l = j
    · rw [hl, hself]
      exact hc.tail
    · rw [hne hl]
      intro k hk hge hend
      rw [(hother l hl).map]
      exact h.tail l k hk hge hend
  · intro l m c hl hm
    change Owns fs' (Function.update s.inode j sin' l).din c at hl
    change Owns fs' (Function.update s.inode j sin' m).din c at hm
    by_cases hlj : l = j
    · by_cases hmj : m = j
      · exact hlj.trans hmj.symm
      · rw [hlj, hself] at hl
        rw [hne hmj] at hm
        exact absurd hl ((hother m hmj).apart c hm)
    · rw [hne hlj] at hl
      by_cases hmj : m = j
      · rw [hmj, hself] at hm
        exact absurd hm ((hother l hlj).apart c hl)
      · rw [hne hmj] at hm
        exact h.apart l m c (((hother l hlj).owns c).mp hl) (((hother m hmj).owns c).mp hm)
  · intro l
    show (Function.update s.inode j sin' l).ino ≠ 0 → InUse fs' (Function.update s.inode j sin' l).ino
    rw [hino]
    intro h0
    exact (hinoKeep l h0).1
  · intro l m
    show ¬ Owns fs' (Function.update s.inode j sin' m).din (Function.update s.inode j sin' l).ino
    rw [hino]
    by_cases hm : m = j
    · rw [hm, hself]
      intro hown
      exact (hinoKeep l hown.1).2 hown
    · rw [hne hm]
      intro hown
      exact h.inoApart l m (((hother m hm).owns _).mp hown)
  · intro l m
    show (Function.update s.inode j sin' l).ino = (Function.update s.inode j sin' m).ino → _
    rw [hino, hino]
    exact h.inoInj l m
  · intro l
    show (Function.update s.inode j sin' l).ino ≠ 0 → ¬ IsFreemapBlock fs' _
    rw [hino]
    intro h0 hb
    exact h.inoMeta l h0 ((hmeta _).mp hb)
  · intro b hb hlt
    have hb' := (hmeta b).mp hb
    have hlt' : b < s.fs.blocks := hc.priv.blocks ▸ hlt
    have h0 : b ≠ 0 := by
      rintro rfl
      exact absurd hb.1 (by decide)
    have hno : ¬ Owns s.fs (s.inode j).din b := fun hown => h.mapMeta j b hown hb'
    exact (hc.priv.keeps b ⟨h0, hlt', h.freemap b hb' hlt'⟩ hno).1.2.2
  · intro l b
    show Owns fs' (Function.update s.inode j sin' l).din b → ¬ IsFreemapBlock fs' b
    rw [hmeta]
    by_cases hl : l = j
    · rw [hl, hself]
      intro hown hb
      have hin' := hc.file.map.inUse_of_owns hown
      have hlt : b < s.fs.blocks := hc.priv.blocks ▸ hin'.2.1
      exact h.mapMeta j b (hfresh b hown ⟨hown.1, hlt, h.freemap b hb hlt⟩) hb
    · rw [hne hl]
      intro hown
      exact h.mapMeta l b (((hother l hl).owns b).mp hown)
  · intro b hb
    rw [hmeta]
    rcases hc.priv.inUse b hb with ⟨hin, hn⟩ | hown
    · rcases h.bits b hin with hm | ⟨l, hl⟩
      · exact Or.inl hm
      · refine Or.inr ⟨l, ?_⟩
        show b = (Function.update s.inode j sin' l).ino ∨
          Owns fs' (Function.update s.inode j sin' l).din b
        rw [hino]
        rcases hl with hl | hl
        · exact Or.inl hl
        · have hlj : l ≠ j := by
            rintro rfl
            exact hn hl
          rw [hne hlj]
          exact Or.inr (((hother l hlj).owns b).mpr hl)
    · refine Or.inr ⟨j, Or.inr ?_⟩
      show Owns fs' (Function.update s.inode j sin' j).din b
      rw [hself]
      exact hown

/-- **The step lemma.** -/
theorem Inv.call (h : Inv s) {c : Call ι} (hcall : s.call c = .ok s') : Inv s' := by
  rcases c.safe (h.file c.target) (h.tail c.target) with ⟨fs', sin', heq, hc⟩ | ⟨p, heq, -⟩
  · rw [Image.call, heq, ok_bind] at hcall
    injection hcall with hs
    rw [← hs]
    exact h.update hc
  · rw [Image.call, heq, error_bind] at hcall
    nomatch hcall

theorem Inv.call_ne_blockInuse (h : Inv s) (c : Call ι) : s.call c ≠ .error .blockInuse := by
  rcases c.safe (h.file c.target) (h.tail c.target) with ⟨fs', sin', heq, -⟩ | ⟨p, heq, hp⟩
  · rw [Image.call, heq, ok_bind]
    intro hcall
    nomatch hcall
  · rw [Image.call, heq, error_bind]
    intro hcall
    injection hcall with hpe
    exact hp hpe

omit [DecidableEq ι] in
/-- `sfs_bmap_get_nolock` that returns an error has changed nothing but free blocks. -/
theorem Inv.bmapGet_error (h : Inv s) {create : Bool} {e : ℤ} {index : ℕ}
    (hget : sfsBmapGet s.fs (s.inode j) index create = .ok (.error e, fs', sin')) :
    fs'.free = s.fs.free ∧ fs'.unusedBlocks = s.fs.unusedBlocks ∧ sin' = s.inode j ∧
      ∀ k, blockAt fs' sin'.din k = blockAt s.fs (s.inode j).din k := by
  have hi : index < maxBlocks := by
    by_contra hge
    have hd : ¬ index < SFS_NDIRECT := by
      rw [maxBlocks] at hge
      omega
    have hj : ¬ index - SFS_NDIRECT < SFS_BLK_NENTRY := by
      rw [maxBlocks] at hge
      omega
    rw [sfsBmapGet] at hget
    change (if index < SFS_NDIRECT then _ else if index - SFS_NDIRECT < SFS_BLK_NENTRY then _
      else _) = _ at hget
    rw [if_neg hd, if_neg hj] at hget
    cases hget
  by_cases hmapped : blockAt s.fs (s.inode j).din index ≠ 0 ∨ create = false
  · rw [sfsBmapGet_mapped h.ok (h.file j).map hi hmapped] at hget
    injection hget with hget
    cases hget
  · have h0 : blockAt s.fs (s.inode j).din index = 0 := by
      by_contra hne
      exact hmapped (Or.inl hne)
    have hcreate : create = true := by
      by_contra hne
      exact hmapped (Or.inr (Bool.not_eq_true _ ▸ hne))
    subst hcreate
    rcases sfsBmapGet_new h.ok (h.file j).map hi h0 with ⟨fs₁, heq, hfail, -⟩ | ⟨b, fs₁, sin₁, heq, -⟩
    · rw [heq] at hget
      injection hget with hget
      injection hget with he hget
      injection hget with hfs hsin
      subst hfs hsin
      exact ⟨hfail.free, hfail.unused, rfl, (hfail.private (h.file j).map).2⟩
    · rw [heq] at hget
      injection hget with hget
      cases hget

/-- **Ownership holds in every state** that is reached from a well-formed image by calls on any inode,
also where there are no free blocks; no check of `sfs_block_inuse` fails; and a call of
`sfs_bmap_get_nolock` that returns an error leaves the freemap, the counter and the block map as they
were. -/
theorem ownership_holds (hm : Mounted s₀.fs) (ho : Ownership s₀) (hw : WellFormed s₀)
    (hrun : ReflTransGen (fun a b => ∃ c, a.call c = .ok b) s₀ s) :
    Ownership s ∧ (∀ c, s.call c ≠ .error .blockInuse) ∧
      ∀ j index create e fs' sin', sfsBmapGet s.fs (s.inode j) index create =
          .ok (.error e, fs', sin') →
        fs'.free = s.fs.free ∧ fs'.unusedBlocks = s.fs.unusedBlocks ∧ sin' = s.inode j ∧
          ∀ k, blockAt fs' sin'.din k = blockAt s.fs (s.inode j).din k := by
  have hinv : Inv s := by
    refine Transition.invariant ?_ hrun (Inv.of_ownership hm ho hw)
    intro a b ha hab
    obtain ⟨c, hc⟩ := hab
    exact ha.call hc
  refine ⟨hinv.ownership, hinv.call_ne_blockInuse, ?_⟩
  intro j index create e fs' sin' hget
  exact hinv.bmapGet_error hget

end

/-! ### Images with one file -/

instance (fs : Fs) (b : ℕ) : Decidable (IsFreemapBlock fs b) :=
  inferInstanceAs (Decidable (_ ∧ _))

/-- A file system with one inode, in block 1, and a freemap of one word. -/
def oneFile (blocks unused : ℕ) (map : BitVec 32) (disk : ℕ → Mem) (din : DiskInode) : Image Unit :=
  ⟨⟨blocks, unused, ⟨32, 1, fun _ => map⟩, false, disk⟩, fun _ => ⟨din, 1, false⟩⟩

/-- The numbers in the places of the inode: the inode block, the indirect block, the direct entries. -/
def numberAt (din : DiskInode) : ℕ → ℕ
  | 0 => 1
  | 1 => din.indirect
  | k + 2 => din.direct k

/-- The position of a place in this list. -/
def Slot.position : Slot Unit → ℕ
  | .inode _ => 0
  | .indirect _ => 1
  | .direct _ k => k + 2
  | .entry _ k => k + 2

/-- Ownership of an image with one short file, as a check of its numbers. -/
theorem ownership_oneFile {blocks unused : ℕ} {map : BitVec 32} {disk : ℕ → Mem} {din : DiskInode}
    (hshort : din.blocks ≤ SFS_NDIRECT)
    (hbits : ∀ b < blocks, (oneFile blocks unused map disk din).fs.free b = false ↔
      b = 0 ∨ IsFreemapBlock (oneFile blocks unused map disk din).fs b ∨
        ∃ k < 2 + SFS_NDIRECT, numberAt din k = b)
    (honce : ∀ i < 2 + SFS_NDIRECT, ∀ k < 2 + SFS_NDIRECT, numberAt din i = numberAt din k →
      numberAt din i ≠ 0 → i = k)
    (hunused : unused = (oneFile blocks unused map disk din).fs.freemap.count) :
    Ownership (oneFile blocks unused map disk din) := by
  have hvalid : ∀ t : Slot Unit, t.Valid (oneFile blocks unused map disk din) →
      t.position < 2 + SFS_NDIRECT ∧
        t.block (oneFile blocks unused map disk din) = numberAt din t.position ∧
        ∀ j k, t ≠ .entry j k := by
    intro t ht
    cases t with
    | inode j => exact ⟨show 0 < 2 + SFS_NDIRECT by decide, rfl, fun _ _ h => by injection h⟩
    | indirect j => exact ⟨show 1 < 2 + SFS_NDIRECT by decide, rfl, fun _ _ h => by injection h⟩
    | direct j k =>
      have hk : k < SFS_NDIRECT := ht
      exact ⟨show k + 2 < _ by omega, rfl, fun _ _ h => by injection h⟩
    | entry j k =>
      obtain ⟨hge, -, hlt⟩ := ht
      have hlt' : k < din.blocks := hlt
      omega
  have hinj : ∀ t u : Slot Unit, (∀ j k, t ≠ .entry j k) → (∀ j k, u ≠ .entry j k) →
      t.position = u.position → t = u := by
    intro t u ht hu heq
    cases t with
    | inode j => cases u with
      | inode l => rfl
      | indirect l => exact absurd heq Nat.zero_ne_one
      | direct l k => exact absurd heq (Nat.succ_ne_zero _).symm
      | entry l k => exact absurd rfl (hu l k)
    | indirect j => cases u with
      | inode l => exact absurd heq Nat.one_ne_zero
      | indirect l => rfl
      | direct l k => exact absurd (Nat.succ.inj heq) (Nat.succ_ne_zero _).symm
      | entry l k => exact absurd rfl (hu l k)
    | direct j i => cases u with
      | inode l => exact absurd heq (Nat.succ_ne_zero _)
      | indirect l => exact absurd (Nat.succ.inj heq) (Nat.succ_ne_zero _)
      | direct l k => rw [Nat.add_right_cancel (heq : i + 2 = k + 2)]
      | entry l k => exact absurd rfl (hu l k)
    | entry j k => exact absurd rfl (ht j k)
  have hone : ∀ t u : Slot Unit, t.Valid (oneFile blocks unused map disk din) →
      u.Valid (oneFile blocks unused map disk din) →
      t.block (oneFile blocks unused map disk din) = u.block (oneFile blocks unused map disk din) →
      t.block (oneFile blocks unused map disk din) ≠ 0 → t = u := by
    intro t u ht hu heq hne
    obtain ⟨ht₁, ht₂, ht₃⟩ := hvalid t ht
    obtain ⟨hu₁, hu₂, hu₃⟩ := hvalid u hu
    rw [ht₂] at heq hne
    rw [hu₂] at heq
    exact hinj t u ht₃ hu₃ (honce _ ht₁ _ hu₁ heq hne)
  refine ⟨?_, hone, hunused⟩
  intro b hb
  refine (hbits b hb).trans (or_congr_right' fun h0 => or_congr_right' fun _ => ⟨?_, ?_⟩)
  · intro h
    obtain ⟨k, hk, hkb⟩ := h
    have hex : ∃ t : Slot Unit, t.Valid (oneFile blocks unused map disk din) ∧
        t.block (oneFile blocks unused map disk din) = b := by
      match k, hk, hkb with
      | 0, _, hkb => exact ⟨.inode (), trivial, hkb⟩
      | 1, _, hkb => exact ⟨.indirect (), trivial, hkb⟩
      | k + 2, hk, hkb => exact ⟨.direct () k, show k < SFS_NDIRECT by omega, hkb⟩
    obtain ⟨t, ht, htb⟩ := hex
    refine ⟨t, ⟨ht, htb⟩, ?_⟩
    intro u hu
    exact hone u t hu.1 ht (hu.2.trans htb.symm) (hu.2 ▸ h0)
  · intro h
    obtain ⟨t, ⟨ht, htb⟩, -⟩ := h
    obtain ⟨ht₁, ht₂, -⟩ := hvalid t ht
    exact ⟨_, ht₁, ht₂.symm.trans htb⟩

/-- An empty file; five blocks are free. -/
def emptyImage : Image Unit :=
  oneFile 8 5 0xF8 (fun _ _ => 0) ⟨0, SFS_TYPE_FILE, 0, fun _ => 0, 0⟩

/-- A file with one block, none of which is mapped. -/
def holeImage : Image Unit :=
  oneFile 8 5 0xF8 (fun _ _ => 0) ⟨4096, SFS_TYPE_FILE, 1, fun _ => 0, 0⟩

/-- A file of twelve blocks with an indirect block, whose first entry is the free block 20. -/
def staleImage : Image Unit :=
  oneFile 32 16 0xFFFF0000 (fun b => if b = 15 then bytes32 20 else fun _ => 0)
    ⟨12 * 4096, SFS_TYPE_FILE, 12, fun k => if k < 12 then k + 3 else 0, 15⟩

/-- Eight blocks, all in use, and a ninth bit that is set. -/
def paddedImage : Image Unit :=
  oneFile 8 1 0x100 (fun _ _ => 0)
    ⟨5 * 4096, SFS_TYPE_FILE, 5, fun k => if k < 5 then k + 3 else 0, 0⟩

/-- A file whose only block is the block of the freemap. -/
def metaImage : Image Unit :=
  oneFile 8 5 0xF8 (fun _ _ => 0)
    ⟨4096, SFS_TYPE_FILE, 1, fun k => if k = 0 then 2 else 0, 0⟩

theorem ownership_holds_empty : ∃ s, emptyImage.call (.bmapLoad () 0) = .ok s ∧ Ownership s := by
  have hm : Mounted emptyImage.fs := ⟨rfl, by decide, by decide⟩
  have ho : Ownership emptyImage :=
    ownership_oneFile (by decide) (by decide) (by decide) (by decide)
  have hw : WellFormed emptyImage := by
    refine ⟨by decide, ?_, ?_, ?_⟩
    · intro t ht hne
      cases t with
      | inode j => exact ⟨show 1 < 8 by decide, show ¬ IsFreemapBlock emptyImage.fs 1 by decide⟩
      | direct j k => exact absurd rfl hne
      | indirect j => exact absurd rfl hne
      | entry j k => exact absurd ht.2.2 (Nat.not_lt_zero k)
    · intro j k hk
      exact absurd hk (Nat.not_lt_zero k)
    · intro j k _ _ _
      rfl
  exact ⟨_, rfl, (ownership_holds hm ho hw (.single ⟨.bmapLoad () 0, rfl⟩)).1⟩

/-- Ownership alone is not kept: each of the stray numbers makes a call go wrong. -/
theorem ownership_is_not_kept :
    (Mounted holeImage.fs ∧ Ownership holeImage ∧
      holeImage.call (.bmapLoad () 0) = .error .blockInuse) ∧
    (Mounted staleImage.fs ∧ Ownership staleImage ∧
      staleImage.call (.bmapLoad () 12) = .error .blockInuse) ∧
    (Mounted paddedImage.fs ∧ Ownership paddedImage ∧
      paddedImage.call (.bmapLoad () 5) = .error .blockInuse) ∧
    (Mounted metaImage.fs ∧ Ownership metaImage ∧
      ∃ s, metaImage.call (.bmapTruncate ()) = .ok s ∧ ¬ Ownership s) := by
  refine ⟨⟨⟨rfl, by decide, by decide⟩, ?_, rfl⟩, ⟨⟨rfl, by decide, by decide⟩, ?_, rfl⟩,
    ⟨⟨rfl, by decide, by decide⟩, ?_, rfl⟩, ⟨rfl, by decide, by decide⟩, ?_, _, rfl, ?_⟩
  · exact ownership_oneFile (by decide) (by decide) (by decide) (by decide)
  · exact ownership_oneFile (by decide) (by decide) (by decide) (by decide)
  · exact ownership_oneFile (by decide) (by decide) (by decide) (by decide)
  · exact ownership_oneFile (by decide) (by decide) (by decide) (by decide)
  · intro h
    have hfree := (h.bits 2 (by decide)).mpr (Or.inr (Or.inl (by decide)))
    exact absurd hfree (by decide)

end Ucore.Sfs
