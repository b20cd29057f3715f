import Mathlib.Data.BitVec
import Mathlib.Data.Finset.Card
import Mathlib.Data.Finset.Range
import Mathlib.Logic.Function.Basic

/-!
# The bitmap of free blocks (`lab8/kern/fs/sfs/bitmap.c`)

The bits are kept in 32-bit words.  A set bit is a free block, `bitmap_alloc` takes the lowest one.
`Bitmap.bit` reads the words as one sequence of bits; after `bitmapAlloc_spec`, `bitmapTest_spec` and
`bitmapFree_spec` the words are not looked at any more.

A failed assertion is an error of type `Panic`, which tells the checks of the file system apart.
-/

namespace Ucore.Sfs

def E_INVAL : ℤ := 3

def E_NO_MEM : ℤ := 4

/-- What stops the kernel: a check by `sfs_block_inuse`, the panic of `sfs_bmap_get_nolock`, the
assertion `index <= din->blocks` of `sfs_bmap_load_nolock`, the assertions on `din->blocks` of
`sfs_truncfile`, another assertion. -/
inductive Panic
  | blockInuse
  | indexOutOfRange
  | bmapIndex
  | truncBlocks
  | assertion
  deriving DecidableEq, Repr

/-- `assert(cond)`. -/
def ensure (cond : Prop) [Decidable cond] (p : Panic) : Except Panic Unit :=
  if cond then .ok () else .error p

theorem ensure_pos {cond : Prop} {inst : Decidable cond} {p : Panic} (h : cond) :
    ensure cond p = .ok () := if_pos h

def WORD_BITS : ℕ := 32

/-- `struct bitmap`. -/
structure Bitmap where
  nbits : ℕ
  nwords : ℕ
  map : ℕ → BitVec 32

/-- The search of `bitmap_alloc` inside a word. -/
def findOffset (w : BitVec 32) : Option ℕ :=
  (List.range WORD_BITS).find? fun offset => w &&& BitVec.twoPow 32 offset != 0

/-- `bitmap_alloc`: the index and the new bitmap, or `none` for `-E_NO_MEM`. -/
def bitmapAlloc (b : Bitmap) : Except Panic (Option (ℕ × Bitmap)) :=
  match (List.range b.nwords).find? fun ix => b.map ix != 0 with
  | none => .ok none
  | some ix =>
    match findOffset (b.map ix) with
    | none => .error .assertion
    | some offset => .ok (some (ix * WORD_BITS + offset,
      { b with map := Function.update b.map ix (b.map ix ^^^ BitVec.twoPow 32 offset) }))

/-- `bitmap_test`. -/
def bitmapTest (b : Bitmap) (index : ℕ) : Except Panic Bool := do
  ensure (index < b.nbits) .assertion
  .ok (b.map (index / WORD_BITS) &&& BitVec.twoPow 32 (index % WORD_BITS) != 0)

/-- `bitmap_free`. -/
def bitmapFree (b : Bitmap) (index : ℕ) : Except Panic Bitmap := do
  ensure (index < b.nbits) .assertion
  let ix := index / WORD_BITS
  let mask := BitVec.twoPow 32 (index % WORD_BITS)
  ensure (¬ (b.map ix &&& mask != 0)) .assertion
  .ok { b with map := Function.update b.map ix (b.map ix ||| mask) }

/-! ### Bits -/

/-- Bit `i`. -/
def Bitmap.bit (b : Bitmap) (i : ℕ) : Bool := (b.map (i / WORD_BITS)).getLsbD (i % WORD_BITS)

variable {b b' : Bitmap} {i j : ℕ}

theorem and_twoPow_ne_zero {w : BitVec 32} {k : ℕ} (hk : k < 32) :
    (w &&& BitVec.twoPow 32 k != 0) = w.getLsbD k := by
  rw [BitVec.and_twoPow]
  cases w.getLsbD k with
  | false => rfl
  | true =>
    rw [if_pos rfl, bne_iff_ne]
    intro h
    have hbit := congrArg (fun v : BitVec 32 => v.getLsbD k) h
    simp [hk] at hbit

/-- The search in a word finds its lowest set bit. -/
theorem findOffset_of_ne_zero {w : BitVec 32} (hw : w ≠ 0) :
    ∃ k < 32, findOffset w = some k ∧ w.getLsbD k = true ∧ ∀ l < k, w.getLsbD l = false := by
  cases hfind : findOffset w with
  | none =>
    refine absurd (BitVec.eq_of_getLsbD_eq fun k hk => ?_) hw
    have hnone := List.find?_eq_none.mp hfind k (List.mem_range.mpr hk)
    rw [and_twoPow_ne_zero hk, Bool.not_eq_true] at hnone
    rw [hnone]
    simp
  | some k =>
    obtain ⟨hbit, hmem, hlow⟩ := List.find?_range_eq_some.mp hfind
    have hk : k < 32 := List.mem_range.mp hmem
    rw [and_twoPow_ne_zero hk] at hbit
    refine ⟨k, hk, rfl, hbit, fun l hl => ?_⟩
    have hclear := hlow l hl
    rw [and_twoPow_ne_zero (hl.trans hk)] at hclear
    simpa using hclear

/-- Only bit `ix * 32 + k` of the sequence lies at bit `k` of word `ix`. -/
theorem bit_update {m : ℕ → BitVec 32} {n k : ℕ} {ix : ℕ} {w : BitVec 32} {v : Bool} (hk : k < 32)
    (hself : w.getLsbD k = v) (hother : ∀ l < 32, l ≠ k → w.getLsbD l = (b.map ix).getLsbD l)
    (hm : m = Function.update b.map ix w) :
    (⟨b.nbits, n, m⟩ : Bitmap).bit = Function.update b.bit (ix * WORD_BITS + k) v := by
  funext j
  subst hm
  simp only [Bitmap.bit, WORD_BITS]
  by_cases hj : j = ix * 32 + k
  · subst hj
    have h₁ : (ix * 32 + k) / 32 = ix := by omega
    have h₂ : (ix * 32 + k) % 32 = k := by omega
    rw [Function.update_self, h₁, h₂, Function.update_self, hself]
  · rw [Function.update_of_ne hj]
    by_cases hix : j / 32 = ix
    · have hl : j % 32 ≠ k := by omega
      rw [hix, Function.update_self, hother _ (Nat.mod_lt _ (by decide)) hl, Bitmap.bit]
      simp only [WORD_BITS, hix]
    · rw [Function.update_of_ne hix]
      rfl

/-- **`bitmap_alloc`** takes the lowest set bit of the words, or finds that there is none. -/
theorem bitmapAlloc_lowest (b : Bitmap) :
    bitmapAlloc b = .ok none ∧ (∀ i < b.nwords * WORD_BITS, b.bit i = false) ∨
      ∃ i b', bitmapAlloc b = .ok (some (i, b')) ∧ i < b.nwords * WORD_BITS ∧ b.bit i = true ∧
        (∀ j < i, b.bit j = false) ∧ b'.bit = Function.update b.bit i false ∧
        b'.nbits = b.nbits ∧ b'.nwords = b.nwords := by
  rw [bitmapAlloc]
  cases hfind : (List.range b.nwords).find? fun ix => b.map ix != 0 with
  | none =>
    refine Or.inl ⟨rfl, fun i hi => ?_⟩
    have hix : i / WORD_BITS < b.nwords := by
      rw [WORD_BITS] at *
      omega
    have hzero := List.find?_eq_none.mp hfind _ (List.mem_range.mpr hix)
    have hzero' : b.map (i / WORD_BITS) = 0 := by simpa using hzero
    rw [Bitmap.bit, hzero']
    simp
  | some ix =>
    right
    obtain ⟨hword, hmem, hlow⟩ := List.find?_range_eq_some.mp hfind
    have hix : ix < b.nwords := List.mem_range.mp hmem
    have hne : b.map ix ≠ 0 := by simpa using hword
    obtain ⟨k, hk, hoff, hbit, hlow'⟩ := findOffset_of_ne_zero hne
    simp only [hoff]
    have hlt : ix * WORD_BITS + k < b.nwords * WORD_BITS := by
      rw [WORD_BITS]
      omega
    refine ⟨_, _, rfl, hlt, ?_, fun j hj => ?_, ?_, rfl, rfl⟩
    · simp only [Bitmap.bit, WORD_BITS]
      have h₁ : (ix * 32 + k) / 32 = ix := by omega
      have h₂ : (ix * 32 + k) % 32 = k := by omega
      rw [h₁, h₂, hbit]
    · -- a lower index lies in a lower word, which is zero, or below the offset
      simp only [Bitmap.bit, WORD_BITS] at hj ⊢
      rcases (by omega : j / 32 < ix ∨ j / 32 = ix ∧ j % 32 < k) with hj' | ⟨hj₁, hj₂⟩
      · have hzero : b.map (j / 32) = 0 := by simpa using hlow _ hj'
        rw [hzero]
        simp
      · rw [hj₁]
        exact hlow' _ hj₂
    · refine bit_update hk ?_ (fun l hl hlk => ?_) rfl
      · simp [hbit, hk]
      · simp [hl, hlk]

theorem bitmapAlloc_spec (hn : b.nbits = b.nwords * WORD_BITS) :
    bitmapAlloc b = .ok none ∧ (∀ i < b.nbits, b.bit i = false) ∨
      ∃ i b', bitmapAlloc b = .ok (some (i, b')) ∧ i < b.nbits ∧ b.bit i = true ∧
        b'.bit = Function.update b.bit i false ∧ b'.nbits = b.nbits ∧ b'.nwords = b.nwords := by
  rw [hn]
  rcases bitmapAlloc_lowest b with h | ⟨i, b', halloc, hi, hset, -, hbit, hbits, hwords⟩
  · exact Or.inl h
  · exact Or.inr ⟨i, b', halloc, hi, hset, hbit, hbits.trans hn, hwords⟩

theorem bitmapTest_spec (hi : i < b.nbits) : bitmapTest b i = .ok (b.bit i) := by
  have hlt : i % WORD_BITS < 32 := Nat.mod_lt _ (by decide)
  rw [bitmapTest, ensure_pos hi]
  show Except.ok _ = _
  rw [and_twoPow_ne_zero hlt]
  rfl

theorem bitmapFree_spec (hi : i < b.nbits) (hclear : b.bit i = false) :
    ∃ b', bitmapFree b i = .ok b' ∧ b'.bit = Function.update b.bit i true ∧ b'.nbits = b.nbits ∧
      b'.nwords = b.nwords := by
  have hlt : i % WORD_BITS < 32 := Nat.mod_lt _ (by decide)
  have hno : ¬ (b.map (i / WORD_BITS) &&& BitVec.twoPow 32 (i % WORD_BITS) != 0) := by
    rw [and_twoPow_ne_zero hlt]
    exact Bool.not_eq_true _ ▸ hclear
  refine ⟨_, by rw [bitmapFree, ensure_pos hi]; show (ensure _ _ >>= _) = _; rw [ensure_pos hno]; rfl,
    ?_⟩
  refine ⟨?_, rfl, rfl⟩
  have hi' : i / WORD_BITS * WORD_BITS + i % WORD_BITS = i := by
    rw [WORD_BITS]
    omega
  rw [← congrArg (fun k => Function.update b.bit k true) hi']
  refine bit_update hlt ?_ (fun l hl hlk => ?_) rfl
  · simp [hlt]
  · simp [hl, hlk]

/-- The number of set bits. -/
def Bitmap.count (b : Bitmap) : ℕ := ((Finset.range b.nbits).filter fun i => b.bit i = true).card

theorem count_of_clear (hi : i < b.nbits) (hset : b.bit i = true) (hn : b'.nbits = b.nbits)
    (hb : b'.bit = Function.update b.bit i false) : b'.count + 1 = b.count := by
  have herase : ((Finset.range b'.nbits).filter fun j => b'.bit j = true) =
      ((Finset.range b.nbits).filter fun j => b.bit j = true).erase i := by
    ext j
    rw [hb, hn, Finset.mem_erase, Finset.mem_filter, Finset.mem_filter]
    by_cases hj : j = i
    · rw [hj, Function.update_self]
      simp
    · rw [Function.update_of_ne hj]
      simp [hj]
  rw [Bitmap.count, herase]
  exact Finset.card_erase_add_one (Finset.mem_filter.mpr ⟨Finset.mem_range.mpr hi, hset⟩)

theorem count_of_set (hi : i < b.nbits) (hclear : b.bit i = false) (hn : b'.nbits = b.nbits)
    (hb : b'.bit = Function.update b.bit i true) : b'.count = b.count + 1 := by
  have hset : b'.bit i = true := by rw [hb, Function.update_self]
  have hback : b.bit = Function.update b'.bit i false := by
    rw [hb, Function.update_idem, ← hclear, Function.update_eq_self]
  exact (count_of_clear (hn ▸ hi) hset hn.symm hback).symm

end Ucore.Sfs
