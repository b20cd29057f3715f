import Ucore.Sfs.Model

/-!
# Blocks of the device in use and free

`FsOk` says that the freemap and the counter of the super block agree.  `sfsBlockAlloc_spec` and
`sfsBlockFree_spec` describe an allocation (`Allocs`) and a release (`Frees`); an access to a block in
use goes through (`sfsRbuf_spec`, `sfsWbuf_spec`).
-/

namespace Ucore.Sfs

open Memory

variable {fs fs' : Fs} {b c : ℕ}

theorem ok_bind {α β : Type} (a : α) (f : α → Except Panic β) : (Except.ok a >>= f) = f a := rfl

theorem error_bind {α β : Type} (p : Panic) (f : α → Except Panic β) :
    (Except.error p >>= f) = .error p := rfl

/-- The bit of block `b` in the freemap; a set bit is a free block. -/
def Fs.free (fs : Fs) (b : ℕ) : Bool := fs.freemap.bit b

/-- The freemap has bits for all blocks, the free ones are blocks of the file system, and the counter
of the super block counts them. -/
structure FsOk (fs : Fs) : Prop where
  words : fs.freemap.nbits = fs.freemap.nwords * WORD_BITS
  covers : fs.blocks ≤ fs.freemap.nbits
  small : fs.blocks < 2 ^ 32
  valid : ∀ b < fs.freemap.nbits, fs.free b = true → b ≠ 0 ∧ b < fs.blocks
  unused : fs.unusedBlocks = fs.freemap.count

/-- A block of the file system that is not free. -/
def InUse (fs : Fs) (b : ℕ) : Prop := b ≠ 0 ∧ b < fs.blocks ∧ fs.free b = false

/-- A block of the file system that is free. -/
def IsFree (fs : Fs) (b : ℕ) : Prop := b ≠ 0 ∧ b < fs.blocks ∧ fs.free b = true

theorem InUse.ne (hb : InUse fs b) (hc : IsFree fs c) : b ≠ c := by
  rintro rfl
  exact absurd (hb.2.2.symm.trans hc.2.2) (by decide)

theorem checkBlock_spec (h₀ : b ≠ 0) (h₁ : b < fs.blocks) : checkBlock fs b = .ok () :=
  ensure_pos ⟨h₀, h₁⟩

theorem assertInuse_spec (hok : FsOk fs) (hb : InUse fs b) : assertInuse fs b = .ok () := by
  obtain ⟨h₀, h₁, hfree⟩ := hb
  have htest : bitmapTest fs.freemap b = .ok false := by
    rw [bitmapTest_spec (h₁.trans_le hok.covers)]
    exact congrArg Except.ok hfree
  rw [assertInuse, sfsBlockInuse, if_pos ⟨h₀, h₁⟩, htest]
  rfl

/-! ### Access to a block in use -/

theorem sfsRbuf_spec {len offset : ℕ} (hb : InUse fs b) (h₁ : offset < SFS_BLKSIZE)
    (h₂ : offset + len ≤ SFS_BLKSIZE) :
    sfsRbuf fs len b offset = .ok fun i => fs.disk b (offset + i) := by
  rw [sfsRbuf, ensure_pos ⟨h₁, h₂⟩, ok_bind, checkBlock_spec hb.1 hb.2.1, ok_bind]

/-- Block `b` gets the contents `m`. -/
def Fs.setDisk (fs : Fs) (b : ℕ) (m : Mem) : Fs := { fs with disk := Function.update fs.disk b m }

theorem sfsWbuf_spec {src : Mem} {len offset : ℕ} (hb : InUse fs b) (h₁ : offset < SFS_BLKSIZE)
    (h₂ : offset + len ≤ SFS_BLKSIZE) :
    sfsWbuf fs src len b offset = .ok (fs.setDisk b (memcpy (fs.disk b) offset src len)) := by
  rw [sfsWbuf, ensure_pos ⟨h₁, h₂⟩, ok_bind, checkBlock_spec hb.1 hb.2.1, ok_bind]
  rfl

theorem FsOk.setDisk (hok : FsOk fs) (b : ℕ) (m : Mem) : FsOk (fs.setDisk b m) :=
  ⟨hok.words, hok.covers, hok.small, hok.valid, hok.unused⟩

theorem sfsClearBlock_spec (hb : InUse fs b) :
    sfsClearBlock fs b = .ok (fs.setDisk b (memset (fs.disk b) 0 0 SFS_BLKSIZE)) := by
  rw [sfsClearBlock, checkBlock_spec hb.1 hb.2.1, ok_bind]
  rfl

/-- The super block and the freemap keep their sizes, a change of their contents sets the flag, and
block 0 is not written. -/
structure Flagged (fs fs' : Fs) : Prop where
  nbits : fs'.freemap.nbits = fs.freemap.nbits
  nwords : fs'.freemap.nwords = fs.freemap.nwords
  super : fs'.disk 0 = fs.disk 0
  dirty : fs'.superDirty = true ∨
    fs'.superDirty = fs.superDirty ∧ fs'.freemap = fs.freemap ∧ fs'.unusedBlocks = fs.unusedBlocks

theorem Flagged.refl (fs : Fs) : Flagged fs fs := ⟨rfl, rfl, rfl, Or.inr ⟨rfl, rfl, rfl⟩⟩

theorem Flagged.trans {fs'' : Fs} (h₁ : Flagged fs fs') (h₂ : Flagged fs' fs'') :
    Flagged fs fs'' := by
  refine ⟨h₂.nbits.trans h₁.nbits, h₂.nwords.trans h₁.nwords, h₂.super.trans h₁.super, ?_⟩
  rcases h₂.dirty with hd | ⟨hd, hf, hu⟩
  · exact Or.inl hd
  · rcases h₁.dirty with hd' | ⟨hd', hf', hu'⟩
    · exact Or.inl (hd.trans hd')
    · exact Or.inr ⟨hd.trans hd', hf.trans hf', hu.trans hu'⟩

theorem Flagged.setDisk (h : Flagged fs fs') (hb : b ≠ 0) (m : Mem) :
    Flagged fs (fs'.setDisk b m) :=
  ⟨h.nbits, h.nwords, (Function.update_of_ne hb.symm _ _).trans h.super, h.dirty⟩

/-! ### Allocation -/

/-- Block `b` has been allocated and cleared. -/
structure Allocs (fs fs' : Fs) (b : ℕ) : Prop where
  isFree : IsFree fs b
  ok : FsOk fs'
  free : fs'.free = Function.update fs.free b false
  blocks : fs'.blocks = fs.blocks
  disk : fs'.disk = Function.update fs.disk b (memset (fs.disk b) 0 0 SFS_BLKSIZE)
  count : fs'.freemap.count + 1 = fs.freemap.count
  flags : Flagged fs fs'

theorem Allocs.inUse (ha : Allocs fs fs' b) : InUse fs' b := by
  refine ⟨ha.isFree.1, ha.blocks ▸ ha.isFree.2.1, ?_⟩
  rw [ha.free, Function.update_self]

theorem Allocs.inUse_of (ha : Allocs fs fs' b) (hc : InUse fs c) : InUse fs' c := by
  refine ⟨hc.1, ha.blocks ▸ hc.2.1, ?_⟩
  rw [ha.free, Function.update_of_ne (hc.ne ha.isFree)]
  exact hc.2.2

theorem Allocs.zero (ha : Allocs fs fs' b) : ∀ x < SFS_BLKSIZE, fs'.disk b x = 0 := by
  intro x hx
  rw [ha.disk, Function.update_self]
  exact if_pos ⟨Nat.zero_le _, by omega⟩

/-- **`sfs_block_alloc`**: a free block, or there is none. -/
theorem sfsBlockAlloc_spec (hok : FsOk fs) :
    sfsBlockAlloc fs = .ok (.error (-E_NO_MEM), fs) ∧ fs.freemap.count = 0 ∨
      ∃ b fs', sfsBlockAlloc fs = .ok (.ok b, fs') ∧ Allocs fs fs' b := by
  rcases bitmapAlloc_spec hok.words with ⟨heq, hnone⟩ | ⟨b, bm, heq, hlt, hset, hbit, hn, hw⟩
  · refine Or.inl ⟨by rw [sfsBlockAlloc, heq]; rfl, ?_⟩
    rw [Bitmap.count, Finset.card_eq_zero, Finset.filter_eq_empty_iff]
    intro i hi
    rw [hnone i (Finset.mem_range.mp hi)]
    exact Bool.false_ne_true
  · right
    obtain ⟨h₀, h₁⟩ := hok.valid b hlt hset
    have hcount := count_of_clear hlt hset hn hbit
    have hpos : fs.unusedBlocks > 0 := by
      rw [hok.unused]
      omega
    have hok' : ∀ d s, FsOk ⟨fs.blocks, fs.unusedBlocks - 1, bm, s, d⟩ := by
      intro d s
      refine ⟨?_, ?_, hok.small, fun c hc hfree => ?_, ?_⟩
      · show bm.nbits = bm.nwords * WORD_BITS
        rw [hn, hw, hok.words]
      · show fs.blocks ≤ bm.nbits
        rw [hn]
        exact hok.covers
      · have hfree' : bm.bit c = true := hfree
        rw [hbit] at hfree'
        have hcb : c ≠ b := by
          rintro rfl
          rw [Function.update_self] at hfree'
          exact absurd hfree' (by decide)
        rw [Function.update_of_ne hcb] at hfree'
        exact hok.valid c (hn ▸ hc) hfree'
      · show fs.unusedBlocks - 1 = bm.count
        rw [hok.unused]
        omega
    have hin : ∀ d s, InUse ⟨fs.blocks, fs.unusedBlocks - 1, bm, s, d⟩ b := by
      intro d s
      refine ⟨h₀, h₁, ?_⟩
      show bm.bit b = false
      rw [hbit, Function.update_self]
    refine ⟨b, ⟨fs.blocks, fs.unusedBlocks - 1, bm, true,
      Function.update fs.disk b (memset (fs.disk b) 0 0 SFS_BLKSIZE)⟩, ?_,
      ⟨⟨h₀, h₁, hset⟩, hok' _ _, hbit, rfl, rfl, hcount,
        ⟨hn, hw, Function.update_of_ne h₀.symm _ _, Or.inl rfl⟩⟩⟩
    rw [sfsBlockAlloc, heq, ok_bind]
    show (ensure _ _ >>= _) = _
    rw [ensure_pos hpos, ok_bind]
    show (assertInuse _ b >>= _) = _
    rw [assertInuse_spec (hok' _ _) (hin _ _), ok_bind]
    show (sfsClearBlock _ b >>= _) = _
    rw [sfsClearBlock_spec (hin _ _), ok_bind]
    rfl

/-- Block `b` has been given back. -/
structure Frees (fs fs' : Fs) (b : ℕ) : Prop where
  ok : FsOk fs'
  free : fs'.free = Function.update fs.free b true
  blocks : fs'.blocks = fs.blocks
  disk : fs'.disk = fs.disk
  count : fs'.freemap.count = fs.freemap.count + 1
  flags : Flagged fs fs'

/-- **`sfs_block_free`** of a block in use. -/
theorem sfsBlockFree_spec (hok : FsOk fs) (hb : InUse fs b) :
    ∃ fs', sfsBlockFree fs b = .ok fs' ∧ Frees fs fs' b := by
  have hlt : b < fs.freemap.nbits := hb.2.1.trans_le hok.covers
  obtain ⟨bm, heq, hbit, hn, hw⟩ := bitmapFree_spec hlt hb.2.2
  have hcount := count_of_set hlt hb.2.2 hn hbit
  refine ⟨_, by rw [sfsBlockFree, assertInuse_spec hok hb, ok_bind, heq, ok_bind], ?_⟩
  refine ⟨⟨?_, ?_, hok.small, fun c hc hfree => ?_, ?_⟩, hbit, rfl, rfl, hcount,
    ⟨hn, hw, rfl, Or.inl rfl⟩⟩
  · show bm.nbits = bm.nwords * WORD_BITS
    rw [hn, hw, hok.words]
  · show fs.blocks ≤ bm.nbits
    rw [hn]
    exact hok.covers
  · by_cases hcb : c = b
    · rw [hcb]
      exact ⟨hb.1, hb.2.1⟩
    · have hfree' : bm.bit c = true := hfree
      rw [hbit, Function.update_of_ne hcb] at hfree'
      exact hok.valid c (hn ▸ hc) hfree'
  · show fs.unusedBlocks + 1 = bm.count
    rw [hok.unused, hcount]

end Ucore.Sfs
