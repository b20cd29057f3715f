import Mathlib.Data.Nat.Bitwise
import Mathlib.Data.Set.Insert
import Mathlib.Data.Set.Lattice
import Mathlib.Order.CompletePartialOrder
import Mathlib.Tactic.Ring

/-!
# Aligned power-of-two blocks and their canonical families

A block of order `o` is an interval `[p, p + 2^o)` whose start is a multiple of `2^o`.  Two such
blocks are nested or disjoint, and the block of the next order that contains `(o, p)` is the union
of `(o, p)` and its *buddy* `(o, p ^^^ 2^o)`.

A family of disjoint blocks of orders at most `K` is **canonical** when no block below the top
order is present together with its buddy.  The theorem of this file is `Canonical.mem_iff`: in a
canonical family the blocks are exactly the maximal aligned blocks inside the covered set, so the
family is a function of that set alone (`Canonical.eq_of_cover_eq`).

Nothing here mentions an allocator.
-/

namespace Ucore.Dyadic

/-- The positions of the block of order `o` that starts at `p`. -/
def block (o p : ℕ) : Set ℕ := {i | p ≤ i ∧ i < p + 2 ^ o}

@[simp] theorem mem_block {o p i : ℕ} : i ∈ block o p ↔ p ≤ i ∧ i < p + 2 ^ o := Iff.rfl

theorem start_mem_block (o p : ℕ) : p ∈ block o p := by
  have := Nat.two_pow_pos o
  simp only [mem_block]
  omega

/-- A position lies in an aligned block exactly when it has the block's quotient. -/
theorem mem_block_iff_div {o p i : ℕ} (hp : 2 ^ o ∣ p) : i ∈ block o p ↔ i / 2 ^ o = p / 2 ^ o := by
  obtain ⟨q, rfl⟩ := hp
  have hpos := Nat.two_pow_pos o
  rw [mem_block, Nat.mul_div_cancel_left q hpos, Nat.div_eq_iff hpos]
  constructor
  · rintro ⟨h₁, h₂⟩
    constructor
    · rw [Nat.mul_comm]; exact h₁
    · rw [Nat.mul_comm q]; omega
  · rintro ⟨h₁, h₂⟩
    rw [Nat.mul_comm q] at h₁ h₂
    omega

/-- Two aligned blocks that share a position are nested, the one of smaller order inside. -/
theorem block_subset_of_mem {o o' p p' i : ℕ} (ho : o ≤ o') (hp : 2 ^ o ∣ p) (hp' : 2 ^ o' ∣ p')
    (hi : i ∈ block o p) (hi' : i ∈ block o' p') : block o p ⊆ block o' p' := by
  intro j hj
  rw [mem_block_iff_div hp] at hi hj
  rw [mem_block_iff_div hp'] at hi' ⊢
  have hsplit : 2 ^ o' = 2 ^ o * 2 ^ (o' - o) := by rw [← pow_add]; congr 1; omega
  rw [hsplit, ← Nat.div_div_eq_div_mul] at hi' ⊢
  rw [hj, ← hi, hi', ← Nat.div_div_eq_div_mul]

theorem start_le_of_block_subset {o o' p p' : ℕ} (h : block o p ⊆ block o' p') :
    p' ≤ p ∧ p + 2 ^ o ≤ p' + 2 ^ o' := by
  have hpos := Nat.two_pow_pos o
  have h₁ := h (start_mem_block o p)
  have h₂ := h (show p + 2 ^ o - 1 ∈ block o p by simp only [mem_block]; omega)
  simp only [mem_block] at h₁ h₂
  omega

/-- Aligned blocks of one order that share a position are the same block. -/
theorem start_eq_of_mem {o p p' i : ℕ} (hp : 2 ^ o ∣ p) (hp' : 2 ^ o ∣ p')
    (hi : i ∈ block o p) (hi' : i ∈ block o p') : p = p' := by
  have h₁ := start_le_of_block_subset (block_subset_of_mem le_rfl hp hp' hi hi')
  have h₂ := start_le_of_block_subset (block_subset_of_mem le_rfl hp' hp hi' hi)
  omega

/-! ### Buddies -/

theorem xor_one (q : ℕ) : q ^^^ 1 = if q % 2 = 0 then q + 1 else q - 1 := by
  rcases Nat.even_or_odd q with hq | hq
  · rw [if_pos (Nat.even_iff.mp hq), Nat.xor_one_of_even hq]
  · rw [if_neg (by rw [Nat.odd_iff.mp hq]; decide), Nat.xor_one_of_odd hq]

/-- Flipping bit `o` of an aligned start flips the last bit of its quotient. -/
theorem mul_xor_two_pow (q o : ℕ) : (2 ^ o * q) ^^^ 2 ^ o = 2 ^ o * (q ^^^ 1) := by
  have h := Nat.shiftLeft_xor_distrib (a := q) (b := 1) (i := o)
  simp only [Nat.shiftLeft_eq, one_mul] at h
  rw [Nat.mul_comm, ← h, Nat.mul_comm]

/-- The buddy of an aligned block is its right neighbour when the block is the left half of the
block of the next order, and its left neighbour otherwise. -/
theorem buddy_cases {o p : ℕ} (hp : 2 ^ o ∣ p) :
    (2 ^ (o + 1) ∣ p ∧ p ^^^ 2 ^ o = p + 2 ^ o) ∨
      (2 ^ o ≤ p ∧ 2 ^ (o + 1) ∣ p - 2 ^ o ∧ p ^^^ 2 ^ o = p - 2 ^ o) := by
  obtain ⟨q, rfl⟩ := hp
  rw [mul_xor_two_pow, xor_one]
  rcases Nat.even_or_odd' q with ⟨k, rfl | rfl⟩
  · left
    rw [if_pos (by omega)]
    exact ⟨⟨k, by rw [pow_succ]; ring⟩, by ring⟩
  · right
    rw [if_neg (by omega)]
    refine ⟨Nat.le_mul_of_pos_right _ (by omega), ⟨k, ?_⟩, ?_⟩
    · rw [pow_succ, Nat.mul_add, Nat.mul_one, Nat.add_sub_cancel]; ring
    · rw [Nat.add_sub_cancel, Nat.mul_add, Nat.mul_one, Nat.add_sub_cancel]

theorem dvd_buddy {o p : ℕ} (hp : 2 ^ o ∣ p) : 2 ^ o ∣ p ^^^ 2 ^ o := by
  obtain ⟨q, rfl⟩ := hp
  exact ⟨q ^^^ 1, mul_xor_two_pow q o⟩

theorem buddy_buddy (o p : ℕ) : (p ^^^ 2 ^ o) ^^^ 2 ^ o = p := by
  rw [Nat.xor_assoc, Nat.xor_self, Nat.xor_zero]

/-- The smaller start of a block and its buddy is aligned to the next order. -/
theorem dvd_min_buddy {o p : ℕ} (hp : 2 ^ o ∣ p) : 2 ^ (o + 1) ∣ min p (p ^^^ 2 ^ o) := by
  have hpos := Nat.two_pow_pos o
  rcases buddy_cases hp with ⟨hd, he⟩ | ⟨hle, hd, he⟩
  · rwa [he, min_eq_left (by omega)]
  · rwa [he, min_eq_right (by omega)]

/-- A block and its buddy make up the block of the next order. -/
theorem block_union_buddy {o p : ℕ} (hp : 2 ^ o ∣ p) :
    block o p ∪ block o (p ^^^ 2 ^ o) = block (o + 1) (min p (p ^^^ 2 ^ o)) := by
  have hpos := Nat.two_pow_pos o
  ext i
  simp only [Set.mem_union, mem_block, pow_succ]
  rcases buddy_cases hp with ⟨-, he⟩ | ⟨hle, -, he⟩
  · rw [he, min_eq_left (by omega)]; omega
  · rw [he, min_eq_right (by omega)]; omega

/-- The halves of an aligned block of order `o + 1`. -/
theorem block_succ (o p : ℕ) : block (o + 1) p = block o p ∪ block o (p + 2 ^ o) := by
  ext i
  simp only [Set.mem_union, mem_block, pow_succ]
  omega

/-! ### Families of blocks -/

/-- The positions covered by a family of blocks, given as a relation between order and start. -/
def cover (B : ℕ → ℕ → Prop) : Set ℕ := {i | ∃ o p, B o p ∧ i ∈ block o p}

theorem block_subset_cover {B : ℕ → ℕ → Prop} {o p : ℕ} (h : B o p) : block o p ⊆ cover B :=
  fun _ hi => ⟨o, p, h, hi⟩

/-- Disjoint aligned blocks of orders at most `K`, none below `K` together with its buddy. -/
structure Canonical (K : ℕ) (B : ℕ → ℕ → Prop) : Prop where
  order_le : ∀ {o p}, B o p → o ≤ K
  aligned : ∀ {o p}, B o p → 2 ^ o ∣ p
  disjoint : ∀ {o p o' p' i}, B o p → B o' p' → i ∈ block o p → i ∈ block o' p' → o = o' ∧ p = p'
  noBuddies : ∀ {o p}, o < K → B o p → ¬ B o (p ^^^ 2 ^ o)

variable {K : ℕ} {B : ℕ → ℕ → Prop}

/-- The family without one block. -/
def erase (B : ℕ → ℕ → Prop) (o p : ℕ) : ℕ → ℕ → Prop := fun o' p' => B o' p' ∧ ¬ (o' = o ∧ p' = p)

/-- The family with one more block. -/
def insert (B : ℕ → ℕ → Prop) (o p : ℕ) : ℕ → ℕ → Prop := fun o' p' => B o' p' ∨ (o' = o ∧ p' = p)

theorem Canonical.erase (h : Canonical K B) (o p : ℕ) : Canonical K (erase B o p) where
  order_le hb := h.order_le hb.1
  aligned hb := h.aligned hb.1
  disjoint hb hb' hi hi' := h.disjoint hb.1 hb'.1 hi hi'
  noBuddies ho hb hb' := h.noBuddies ho hb.1 hb'.1

theorem Canonical.cover_erase (h : Canonical K B) {o p : ℕ} (hb : B o p) :
    cover (Dyadic.erase B o p) = cover B \ block o p := by
  ext i
  constructor
  · rintro ⟨o', p', ⟨hb', hne⟩, hi⟩
    exact ⟨⟨o', p', hb', hi⟩, fun hi' => hne (h.disjoint hb' hb hi hi')⟩
  · rintro ⟨⟨o', p', hb', hi⟩, hni⟩
    refine ⟨o', p', ⟨hb', ?_⟩, hi⟩
    rintro ⟨rfl, rfl⟩
    exact hni hi

/-- A block whose buddy is absent joins a canonical family. -/
theorem Canonical.insert (h : Canonical K B) {o p : ℕ} (ho : o ≤ K) (hp : 2 ^ o ∣ p)
    (hfree : Disjoint (block o p) (cover B)) (hbuddy : o < K → ¬ B o (p ^^^ 2 ^ o)) :
    Canonical K (insert B o p) where
  order_le := by
    rintro o' p' (hb | ⟨rfl, rfl⟩)
    · exact h.order_le hb
    · exact ho
  aligned := by
    rintro o' p' (hb | ⟨rfl, rfl⟩)
    · exact h.aligned hb
    · exact hp
  disjoint := by
    rintro o₁ p₁ o₂ p₂ i (hb₁ | ⟨rfl, rfl⟩) (hb₂ | ⟨rfl, rfl⟩) hi₁ hi₂
    · exact h.disjoint hb₁ hb₂ hi₁ hi₂
    · exact (Set.disjoint_left.mp hfree hi₂ (block_subset_cover hb₁ hi₁)).elim
    · exact (Set.disjoint_left.mp hfree hi₁ (block_subset_cover hb₂ hi₂)).elim
    · exact ⟨rfl, rfl⟩
  noBuddies := by
    rintro o' p' ho' (hb | ⟨rfl, rfl⟩) (hb' | ⟨he, hx⟩)
    · exact h.noBuddies ho' hb hb'
    · subst he
      have hp' : p' = p ^^^ 2 ^ o' := by rw [← hx, buddy_buddy]
      exact hbuddy ho' (hp' ▸ hb)
    · exact hbuddy ho' hb'
    · have hpos := Nat.two_pow_pos o'
      rcases buddy_cases hp with ⟨-, hc⟩ | ⟨hle, -, hc⟩ <;> omega

theorem cover_insert (B : ℕ → ℕ → Prop) (o p : ℕ) :
    cover (insert B o p) = cover B ∪ block o p := by
  ext i
  constructor
  · rintro ⟨o', p', hb | ⟨rfl, rfl⟩, hi⟩
    · exact Or.inl ⟨o', p', hb, hi⟩
    · exact Or.inr hi
  · rintro (⟨o', p', hb, hi⟩ | hi)
    · exact ⟨o', p', Or.inl hb, hi⟩
    · exact ⟨o, p, Or.inr ⟨rfl, rfl⟩, hi⟩

/-! ### A canonical family is determined by what it covers -/

/-- **No aligned block is covered piecewise.**  An aligned block of order at most `K` inside the
covered set lies inside one block of the family: were its two halves covered by different blocks,
these would be the halves themselves, a pair of buddies. -/
theorem Canonical.exists_superblock (h : Canonical K B) :
    ∀ {o p : ℕ}, o ≤ K → 2 ^ o ∣ p → block o p ⊆ cover B →
      ∃ o' p', B o' p' ∧ o ≤ o' ∧ block o p ⊆ block o' p' := by
  intro o
  induction o with
  | zero =>
    intro p _ hp hsub
    obtain ⟨o', p', hb, hi⟩ := hsub (start_mem_block 0 p)
    exact ⟨o', p', hb, Nat.zero_le _,
      block_subset_of_mem (Nat.zero_le _) hp (h.aligned hb) (start_mem_block 0 p) hi⟩
  | succ o ih =>
    intro p ho hp hsub
    have hpos := Nat.two_pow_pos o
    have hp₀ : 2 ^ o ∣ p := (pow_dvd_pow 2 (Nat.le_succ o)).trans hp
    rw [block_succ] at hsub
    obtain ⟨o₁, p₁, hb₁, hle₁, hs₁⟩ := ih (by omega) hp₀ (Set.subset_union_left.trans hsub)
    obtain ⟨o₂, p₂, hb₂, hle₂, hs₂⟩ :=
      ih (p := p + 2 ^ o) (by omega) (Nat.dvd_add hp₀ dvd_rfl) (Set.subset_union_right.trans hsub)
    -- a half that lies in a block of larger order drags the whole block along
    rcases Nat.lt_or_ge o o₁ with hlt₁ | hge₁
    · refine ⟨o₁, p₁, hb₁, hlt₁, ?_⟩
      exact block_subset_of_mem hlt₁ hp (h.aligned hb₁) (start_mem_block _ p)
        (hs₁ (start_mem_block o p))
    rcases Nat.lt_or_ge o o₂ with hlt₂ | hge₂
    · refine ⟨o₂, p₂, hb₂, hlt₂, ?_⟩
      refine block_subset_of_mem hlt₂ hp (h.aligned hb₂) (i := p + 2 ^ o) ?_
        (hs₂ (start_mem_block o _))
      simp only [mem_block, pow_succ]
      omega
    -- otherwise both halves are in the family, against `noBuddies`
    · obtain rfl : o = o₁ := by omega
      obtain rfl : o = o₂ := by omega
      obtain rfl : p = p₁ := start_eq_of_mem hp₀ (h.aligned hb₁) (start_mem_block o p)
        (hs₁ (start_mem_block o p))
      have hp₂ : p + 2 ^ o = p₂ := start_eq_of_mem (Nat.dvd_add hp₀ dvd_rfl) (h.aligned hb₂)
        (start_mem_block o _) (hs₂ (start_mem_block o _))
      have hx : p ^^^ 2 ^ o = p + 2 ^ o := by
        obtain ⟨q, rfl⟩ := hp
        have hq : 2 ^ (o + 1) * q = 2 ^ o * (2 * q) := by rw [pow_succ]; ring
        rw [hq, mul_xor_two_pow, xor_one, if_pos (by omega)]
        ring
      rw [← hp₂, ← hx] at hb₂
      exact (h.noBuddies (by omega) hb₁ hb₂).elim

/-- **The maximal aligned blocks.**  A canonical family consists of the aligned blocks that lie in
the covered set and are of top order or have a buddy that is not all covered. -/
theorem Canonical.mem_iff (h : Canonical K B) {o p : ℕ} :
    B o p ↔ o ≤ K ∧ 2 ^ o ∣ p ∧ block o p ⊆ cover B ∧
      (o < K → ¬ block o (p ^^^ 2 ^ o) ⊆ cover B) := by
  constructor
  · intro hb
    refine ⟨h.order_le hb, h.aligned hb, block_subset_cover hb, fun ho hsub => ?_⟩
    have hal := h.aligned hb
    obtain ⟨o', p', hb', hle, hs⟩ := h.exists_superblock (h.order_le hb) (dvd_buddy hal) hsub
    rcases hle.lt_or_eq with hlt | rfl
    · -- the superblock of the buddy contains the block itself
      have hmin := block_subset_of_mem hlt (dvd_min_buddy hal) (h.aligned hb')
        (i := p ^^^ 2 ^ o)
        (by rw [← block_union_buddy hal]; exact Or.inr (start_mem_block _ _))
        (hs (start_mem_block _ _))
      have hp' : p ∈ block o' p' :=
        hmin (by rw [← block_union_buddy hal]; exact Or.inl (start_mem_block _ _))
      have := (h.disjoint hb hb' (start_mem_block o p) hp').1
      omega
    · have hpe := start_eq_of_mem (dvd_buddy hal) (h.aligned hb') (start_mem_block _ _)
        (hs (start_mem_block _ _))
      exact h.noBuddies ho hb (hpe ▸ hb')
  · rintro ⟨ho, hp, hsub, hmax⟩
    obtain ⟨o', p', hb', hle, hs⟩ := h.exists_superblock ho hp hsub
    rcases hle.lt_or_eq with hlt | rfl
    · have hoK : o < K := lt_of_lt_of_le hlt (h.order_le hb')
      refine (hmax hoK fun i hi => block_subset_cover hb' ?_).elim
      have hmin := block_subset_of_mem hlt (dvd_min_buddy hp) (h.aligned hb') (i := p)
        (by rw [← block_union_buddy hp]; exact Or.inl (start_mem_block _ _))
        (hs (start_mem_block _ _))
      exact hmin (by rw [← block_union_buddy hp]; exact Or.inr hi)
    · have := start_eq_of_mem hp (h.aligned hb') (start_mem_block _ _) (hs (start_mem_block _ _))
      exact this ▸ hb'

/-- **Uniqueness.**  Two canonical families with the same cover are the same family. -/
theorem Canonical.eq_of_cover_eq {B' : ℕ → ℕ → Prop} (h : Canonical K B) (h' : Canonical K B')
    (hc : cover B = cover B') (o p : ℕ) : B o p ↔ B' o p := by
  rw [h.mem_iff, h'.mem_iff, hc]

end Ucore.Dyadic
