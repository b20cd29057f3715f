import Ucore.Lib.Transition
import Ucore.Sfs.Mount

/-!
# Runs of the bitmap

`bitmap_create` sets all the words, and a loop toggles the bits of the last word that stand for no index.
From then on the words say which indices below `nbits` are free (`Represents`), whatever is allocated and
freed.

**`bitmap_runs`**: allocation takes the lowest free index, or fails when there is none.
-/

namespace Ucore.Sfs

open Relation

variable {b b' : Bitmap} {nbits i j : ℕ} {used : Finset ℕ}

/-! ### `bitmap_create` -/

/-- The words after `memset(map, 0xFF, …)`. -/
def allSet (nwords : ℕ) (mem : ℕ → BitVec 32) (ix : ℕ) : BitVec 32 :=
  if ix < nwords then BitVec.allOnes 32 else mem ix

/-- The loop of `bitmap_create` over the leftover bits from `overbits` on; `k` of them remain. -/
def toggleLoop : ℕ → ℕ → BitVec 32 → BitVec 32
  | 0, _, w => w
  | k + 1, overbits, w => toggleLoop k (overbits + 1) (w ^^^ BitVec.twoPow 32 overbits)

/-- `bitmap_create`.  The first call of `kmalloc` has memory or not, the second one has the words `mem`, if
any.  `WORD_BITS` is a `size_t`, and so is what is computed with it. -/
def Bitmap.create (nbits : ℕ) (hasMem : Bool) (mem : Option (ℕ → BitVec 32)) :
    Except Panic (Option Bitmap) := do
  ensure (nbits ≠ 0 ∧ (nbits + WORD_BITS) % 2 ^ 64 > nbits) .assertion
  if !hasMem then .ok none else
  let nwords := (nbits + WORD_BITS - 1) % 2 ^ 64 / WORD_BITS % 2 ^ 32
  match mem with
  | none => .ok none
  | some mem =>
    let map := allSet nwords mem
    if nbits ≠ nwords * WORD_BITS % 2 ^ 64 then do
      let ix := (nwords + 2 ^ 32 - 1) % 2 ^ 32
      let overbits := (nbits + 2 ^ 64 - ix * WORD_BITS % 2 ^ 64) % 2 ^ 64 % 2 ^ 32
      ensure (nbits / WORD_BITS = ix) .assertion
      ensure (overbits > 0 ∧ overbits < WORD_BITS) .assertion
      .ok (some ⟨nbits, nwords,
        Function.update map ix (toggleLoop (WORD_BITS - overbits) overbits (map ix))⟩)
    else .ok (some ⟨nbits, nwords, map⟩)

theorem toggleLoop_bit {k overbits : ℕ} (w : BitVec 32) (hk : overbits + k ≤ 32) (hj : j < 32) :
    (toggleLoop k overbits w).getLsbD j =
      if overbits ≤ j ∧ j < overbits + k then !w.getLsbD j else w.getLsbD j := by
  induction k generalizing overbits w with
  | zero =>
    rw [toggleLoop, if_neg (by omega)]
  | succ k ih =>
    rw [toggleLoop, ih _ (by omega), BitVec.getLsbD_xor, BitVec.getLsbD_twoPow]
    by_cases hjo : j = overbits
    · subst hjo
      rw [if_neg (by omega), if_pos (by omega)]
      simp [hj]
    · have hne : decide (overbits = j) = false := decide_eq_false (Ne.symm hjo)
      rw [hne, Bool.and_false, Bool.xor_false]
      exact if_congr (by omega) rfl rfl

/-- The words say which of the indices below `nbits` are not in use. -/
structure Represents (nbits : ℕ) (b : Bitmap) (used : Finset ℕ) : Prop where
  nbits_eq : b.nbits = nbits
  le : nbits ≤ b.nwords * WORD_BITS
  bit : ∀ i < b.nwords * WORD_BITS, b.bit i = decide (i < nbits ∧ i ∉ used)
  lt : ∀ i ∈ used, i < nbits

theorem allSet_bit {nwords : ℕ} (mem : ℕ → BitVec 32) (hi : i < nwords * WORD_BITS) :
    (allSet nwords mem (i / WORD_BITS)).getLsbD (i % WORD_BITS) = true := by
  rw [WORD_BITS] at *
  have hix : i / 32 < nwords := by omega
  have hlt : i % 32 < 32 := Nat.mod_lt _ (by decide)
  rw [allSet, if_pos hix, BitVec.getLsbD_allOnes]
  exact decide_eq_true hlt

/-- `bitmap_create` comes back, without a bitmap when there is no memory for it. -/
theorem Bitmap.create_spec (h0 : 0 < nbits) (hn : nbits < 2 ^ 32) (hasMem : Bool)
    (mem : Option (ℕ → BitVec 32)) :
    ∃ r, Bitmap.create nbits hasMem mem = .ok r ∧ (r.isSome ↔ hasMem = true ∧ mem.isSome) ∧
      ∀ b ∈ r, Represents nbits b ∅ := by
  have hsum : nbits ≠ 0 ∧ (nbits + WORD_BITS) % 2 ^ 64 > nbits := by
    rw [WORD_BITS]
    omega
  rw [Bitmap.create, ensure_pos hsum]
  cases hasMem with
  | false => exact ⟨none, rfl, by simp, fun b hb => by cases hb⟩
  | true =>
    cases mem with
    | none => exact ⟨none, rfl, by simp, fun b hb => by cases hb⟩
    | some mem =>
      have hnwords : (nbits + WORD_BITS - 1) % 2 ^ 64 / WORD_BITS % 2 ^ 32 = (nbits + 31) / 32 := by
        rw [WORD_BITS]
        omega
      simp only [hnwords]
      generalize hw : (nbits + 31) / 32 = nwords
      have hle : nbits ≤ nwords * WORD_BITS := by
        rw [WORD_BITS]
        omega
      have hmod : nwords * WORD_BITS % 2 ^ 64 = nwords * WORD_BITS := by
        rw [WORD_BITS]
        omega
      have hnone : ∀ i ∈ (∅ : Finset ℕ), i < nbits := fun i hi => absurd hi (Finset.notMem_empty i)
      show ∃ r, (if nbits ≠ nwords * WORD_BITS % 2 ^ 64 then _ else _) = _ ∧ _
      rw [hmod]
      by_cases hpad : nbits = nwords * WORD_BITS
      · rw [if_neg (not_not_intro hpad)]
        refine ⟨some ⟨nbits, nwords, allSet nwords mem⟩, rfl, by simp, ?_⟩
        rintro b ⟨rfl⟩
        refine ⟨rfl, hle, fun i hi => ?_, hnone⟩
        have hlt : i < nbits := hpad ▸ hi
        rw [Bitmap.bit, allSet_bit mem hi]
        simpa using hlt
      · rw [if_pos hpad]
        have hix : (nwords + 2 ^ 32 - 1) % 2 ^ 32 = nbits / WORD_BITS := by
          rw [WORD_BITS] at *
          omega
        have hover : (nbits + 2 ^ 64 - nbits / WORD_BITS * WORD_BITS % 2 ^ 64) % 2 ^ 64 % 2 ^ 32 =
            nbits % WORD_BITS := by
          rw [WORD_BITS] at *
          omega
        have hpos : nbits % WORD_BITS > 0 ∧ nbits % WORD_BITS < WORD_BITS := by
          rw [WORD_BITS] at *
          omega
        simp only [hix, hover, ensure_pos hpos]
        refine ⟨_, rfl, by simp, ?_⟩
        rintro b ⟨rfl⟩
        refine ⟨rfl, hle, fun i hi => ?_, hnone⟩
        change i < nwords * WORD_BITS at hi
        have hbit := allSet_bit mem hi
        have hlt : i % WORD_BITS < 32 := Nat.mod_lt _ (by decide)
        simp only [Bitmap.bit]
        by_cases hlast : i / WORD_BITS = nbits / WORD_BITS
        · -- in the last word the bits from `nbits % WORD_BITS` on are toggled
          rw [hlast] at hbit
          have hsum : nbits % WORD_BITS + (WORD_BITS - nbits % WORD_BITS) ≤ 32 := by
            rw [WORD_BITS]
            omega
          rw [hlast, Function.update_self, toggleLoop_bit _ hsum hlt, hbit]
          by_cases hin : i < nbits
          · rw [if_neg (by rw [WORD_BITS] at *; omega)]
            simpa using hin
          · rw [if_pos (by rw [WORD_BITS] at *; omega)]
            simpa using hin
        · rw [Function.update_of_ne hlast, hbit]
          have hin : i < nbits := by
            clear hix hover hsum hnwords hmod
            rw [WORD_BITS] at *
            omega
          simpa using hin

/-! ### Allocation and freeing -/

/-- Two bitmaps differ exactly in the answer of `bitmap_test` for `i`. -/
structure OneChange (b b' : Bitmap) (i : ℕ) : Prop where
  nbits_eq : b'.nbits = b.nbits
  nwords_eq : b'.nwords = b.nwords
  lt : i < b.nbits
  bit : b'.bit = Function.update b.bit i !b.bit i

theorem Represents.alloc (h : Represents nbits b used) :
    bitmapAlloc b = .ok none ∧ (∀ i < nbits, i ∈ used) ∨
      ∃ i b', bitmapAlloc b = .ok (some (i, b')) ∧ i < nbits ∧ i ∉ used ∧ (∀ j < i, j ∈ used) ∧
        OneChange b b' i ∧ Represents nbits b' (insert i used) := by
  rcases bitmapAlloc_lowest b with ⟨heq, hnone⟩ | ⟨i, b', heq, hi, hset, hlow, hbit, hbits, hwords⟩
  · refine Or.inl ⟨heq, fun i hi => ?_⟩
    have hclear := hnone i (hi.trans_le h.le)
    rw [h.bit i (hi.trans_le h.le)] at hclear
    simpa [hi] using hclear
  · right
    have hfree : i < nbits ∧ i ∉ used := by
      have hset' := hset
      rw [h.bit i hi] at hset'
      exact of_decide_eq_true hset'
    refine ⟨i, b', heq, hfree.1, hfree.2, fun j hj => ?_, ⟨hbits, hwords, ?_, ?_⟩, ?_⟩
    · have hclear := hlow j hj
      rw [h.bit j (hj.trans hi)] at hclear
      simpa [hj.trans hfree.1] using hclear
    · rw [h.nbits_eq]
      exact hfree.1
    · rw [hbit, hset]
      rfl
    · refine ⟨hbits.trans h.nbits_eq, hwords ▸ h.le, fun j hj => ?_, fun j hj => ?_⟩
      · rw [hwords] at hj
        rw [hbit]
        by_cases hji : j = i
        · subst hji
          simp
        · rw [Function.update_of_ne hji, h.bit j hj]
          simp [hji]
      · rcases Finset.mem_insert.mp hj with rfl | hj
        · exact hfree.1
        · exact h.lt j hj

theorem Represents.test (h : Represents nbits b used) (hi : i < nbits) :
    bitmapTest b i = .ok (decide (i ∉ used)) := by
  rw [bitmapTest_spec (by rw [h.nbits_eq]; exact hi), h.bit i (hi.trans_le h.le)]
  simp [hi]

theorem Represents.free (h : Represents nbits b used) (hi : i ∈ used) :
    ∃ b', bitmapFree b i = .ok b' ∧ OneChange b b' i ∧ Represents nbits b' (used.erase i) := by
  have hlt := h.lt i hi
  have hclear : b.bit i = false := by
    rw [h.bit i (hlt.trans_le h.le)]
    simp [hi]
  have hlt' : i < b.nbits := by
    rw [h.nbits_eq]
    exact hlt
  obtain ⟨b', heq, hbit, hbits, hwords⟩ := bitmapFree_spec hlt' hclear
  refine ⟨b', heq, ⟨hbits, hwords, hlt', ?_⟩, hbits.trans h.nbits_eq, hwords ▸ h.le, fun j hj => ?_,
    fun j hj => h.lt j (Finset.mem_of_mem_erase hj)⟩
  · rw [hbit, hclear]
    rfl
  · rw [hwords] at hj
    rw [hbit]
    by_cases hji : j = i
    · subst hji
      simp [hlt]
    · rw [Function.update_of_ne hji, h.bit j hj]
      simp [hji]

/-! ### Runs -/

/-- The bitmap, and the indices that were allocated and not freed since. -/
structure Allocations where
  b : Bitmap
  used : Finset ℕ

inductive BitmapOp
  | alloc
  | free (i : ℕ)
  deriving Repr

/-- Only allocated indices are freed. -/
def BitmapOp.Legal (x : Allocations) : BitmapOp → Prop
  | .alloc => True
  | .free i => i ∈ x.used

/-- The effect of a call; an error when an assertion fails. -/
def Allocations.op (x : Allocations) : BitmapOp → Except Panic Allocations
  | .alloc => do
    match ← bitmapAlloc x.b with
    | none => .ok x
    | some (i, b) => .ok ⟨b, insert i x.used⟩
  | .free i => do
    let b ← bitmapFree x.b i
    .ok ⟨b, x.used.erase i⟩

/-- One legal call. -/
def BitmapStep (x x' : Allocations) : Prop := ∃ op : BitmapOp, op.Legal x ∧ x.op op = .ok x'

theorem Represents.step {x x' : Allocations} (h : Represents nbits x.b x.used)
    (hstep : BitmapStep x x') : Represents nbits x'.b x'.used := by
  obtain ⟨op, hlegal, heq⟩ := hstep
  cases op with
  | alloc =>
    rcases h.alloc with ⟨halloc, -⟩ | ⟨i, b', halloc, -, -, -, -, hrep⟩
    · simp only [Allocations.op, halloc] at heq
      obtain rfl := Except.ok.inj heq
      exact h
    · simp only [Allocations.op, halloc] at heq
      obtain rfl := Except.ok.inj heq
      exact hrep
  | free i =>
    obtain ⟨b', hfree, -, hrep⟩ := h.free hlegal
    simp only [Allocations.op, hfree] at heq
    obtain rfl := Except.ok.inj heq
    exact hrep

/-- **The bitmap.**  `bitmap_create` does not panic, and gives a bitmap when there is memory.  Then, in every
run of allocations and of frees of allocated indices: `bitmap_alloc` fails exactly when all the `nbits`
indices are allocated, otherwise it returns the smallest free one; `bitmap_test` says which indices are
free; and a call changes its index only. -/
theorem bitmap_runs (nbits : ℕ) (h0 : 0 < nbits) (hn : nbits < 2 ^ 32) (hasMem : Bool)
    (mem : Option (ℕ → BitVec 32)) :
    ∃ r, Bitmap.create nbits hasMem mem = .ok r ∧ (r.isSome ↔ hasMem = true ∧ mem.isSome) ∧
      ∀ b ∈ r, ∀ x, ReflTransGen BitmapStep ⟨b, ∅⟩ x →
        (bitmapAlloc x.b = .ok none ∧ (∀ i < nbits, i ∈ x.used) ∨
          ∃ i b', bitmapAlloc x.b = .ok (some (i, b')) ∧ i < nbits ∧ i ∉ x.used ∧
            (∀ j < i, j ∈ x.used) ∧ OneChange x.b b' i) ∧
        (∀ i < nbits, bitmapTest x.b i = .ok (decide (i ∉ x.used))) ∧
        ∀ i ∈ x.used, i < nbits ∧ ∃ b', bitmapFree x.b i = .ok b' ∧ OneChange x.b b' i := by
  obtain ⟨r, heq, hsome, hr⟩ := Bitmap.create_spec h0 hn hasMem mem
  refine ⟨r, heq, hsome, fun b hb x hx => ?_⟩
  have h : Represents nbits x.b x.used :=
    Transition.invariant (P := fun y : Allocations => Represents nbits y.b y.used)
      (fun _ _ hy hstep => hy.step hstep) hx (hr b hb)
  refine ⟨h.alloc.imp_right ?_, fun i hi => h.test hi, fun i hi => ⟨h.lt i hi, ?_⟩⟩
  · rintro ⟨i, b', halloc, hi, hfree, hlow, hchange, -⟩
    exact ⟨i, b', halloc, hi, hfree, hlow, hchange⟩
  · obtain ⟨b', hfree, hchange, -⟩ := h.free hi
    exact ⟨b', hfree, hchange⟩

/-- A bitmap of 33 bits: the second word has 31 leftover bits. -/
theorem bitmap_runs_33 :
    ∃ r, Bitmap.create 33 true (some fun _ => 0) = .ok r ∧
      (r.isSome ↔ true = true ∧ (some fun _ : ℕ => (0 : BitVec 32)).isSome) ∧
      ∀ b ∈ r, ∀ x, ReflTransGen BitmapStep ⟨b, ∅⟩ x →
        (bitmapAlloc x.b = .ok none ∧ (∀ i < 33, i ∈ x.used) ∨
          ∃ i b', bitmapAlloc x.b = .ok (some (i, b')) ∧ i < 33 ∧ i ∉ x.used ∧
            (∀ j < i, j ∈ x.used) ∧ OneChange x.b b' i) ∧
        (∀ i < 33, bitmapTest x.b i = .ok (decide (i ∉ x.used))) ∧
        ∀ i ∈ x.used, i < 33 ∧ ∃ b', bitmapFree x.b i = .ok b' ∧ OneChange x.b b' i :=
  bitmap_runs 33 (by decide) (by decide) true (some fun _ => 0)

end Ucore.Sfs
