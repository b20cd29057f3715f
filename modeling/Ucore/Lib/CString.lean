import Mathlib.Data.Int.Notation
import Ucore.Lib.Memory

/-!
# Strings in byte memory

`At m a bs` says that the bytes `bs` stand at the address `a`.  A string is a sequence without zeros,
followed by a zero (`StringAt`); the loops over strings have a bound on their turns and end when they
reach the zero.
-/

namespace Ucore.CString

open Memory

variable {m m' : Mem} {a a' n bound : ℕ} {b : UInt8} {bs cs s t : List UInt8}

/-- The bytes `bs` stand at `a`. -/
def At (m : Mem) (a : ℕ) : List UInt8 → Prop
  | [] => True
  | b :: bs => m a = b ∧ At m (a + 1) bs

instance decidableAt (m : Mem) : ∀ (a : ℕ) (bs : List UInt8), Decidable (At m a bs)
  | _, [] => isTrue trivial
  | a, b :: bs => @instDecidableAnd (m a = b) (At m (a + 1) bs) _ (decidableAt m (a + 1) bs)

@[simp] theorem at_nil : At m a [] := trivial

@[simp] theorem at_cons : At m a (b :: bs) ↔ m a = b ∧ At m (a + 1) bs := Iff.rfl

@[simp] theorem at_append : At m a (bs ++ cs) ↔ At m a bs ∧ At m (a + bs.length) cs := by
  induction bs generalizing a with
  | nil => simp
  | cons b bs ih =>
    rw [List.cons_append, at_cons, ih, at_cons, and_assoc, List.length_cons, Nat.add_assoc,
      Nat.add_comm 1]

theorem At.congr (h : At m a bs) (heq : ∀ i, a ≤ i → i < a + bs.length → m' i = m i) : At m' a bs := by
  induction bs generalizing a with
  | nil => trivial
  | cons b bs ih =>
    rw [List.length_cons] at heq
    refine ⟨(heq a (Nat.le_refl a) (by omega)).trans h.1, ih h.2 fun i h₁ h₂ => heq i (by omega) (by omega)⟩

/-- Bytes that `memset` does not reach. -/
theorem At.memset_of_le (h : At m a bs) (p k : ℕ) (b : UInt8) (hle : p + k ≤ a ∨ a + bs.length ≤ p) :
    At (memset m p b k) a bs :=
  h.congr fun i h₁ h₂ => memset_of_not (by omega)

/-- A part of what stands in memory. -/
theorem At.part (h : At m a bs) (hcs : cs <+: bs.drop n) (hn : n ≤ bs.length) : At m (a + n) cs := by
  obtain ⟨rest, hrest⟩ := hcs
  rw [← List.take_append_drop n bs, ← hrest, at_append, List.length_take_of_le hn, at_append] at h
  exact h.2.1

/-- The string `s` stands at `a`, with the zero that ends it. -/
structure StringAt (m : Mem) (a : ℕ) (s : List UInt8) : Prop where
  bytes : At m a (s ++ [0])
  noZero : ∀ b ∈ s, b ≠ 0

theorem StringAt.tail (h : StringAt m a (b :: s)) : StringAt m (a + 1) s :=
  ⟨h.bytes.2, fun c hc => h.noZero c (List.mem_cons_of_mem b hc)⟩

theorem StringAt.head (h : StringAt m a (b :: s)) : m a = b ∧ m a ≠ 0 := by
  refine ⟨h.bytes.1, ?_⟩
  rw [h.bytes.1]
  exact h.noZero b List.mem_cons_self

theorem StringAt.end (h : StringAt m a []) : m a = 0 := h.bytes.1

/-- The memory in which a string literal stands. -/
def literal (s : List UInt8) : Mem := fun i => s.getD i 0

theorem literal_at (s : List UInt8) : At (literal s) 0 (s ++ [0]) := by
  have hdrop : ∀ k ≤ s.length, At (literal s) k (s.drop k ++ [0]) := by
    intro k hk
    induction hn : s.length - k generalizing k with
    | zero =>
      have hkl : k = s.length := by omega
      subst hkl
      rw [List.drop_length]
      exact ⟨List.getD_eq_default _ _ (Nat.le_refl _), trivial⟩
    | succ n ih =>
      have hlt : k < s.length := by omega
      rw [List.drop_eq_getElem_cons hlt]
      exact ⟨List.getD_eq_getElem _ _ hlt, ih (k + 1) hlt (by omega)⟩
  exact hdrop 0 (Nat.zero_le _)

theorem stringAt_literal (h : 0 ∉ s) : StringAt (literal s) 0 s :=
  ⟨literal_at s, fun _ hb h0 => h (h0 ▸ hb)⟩

/-! ### The functions of `libs/string.c` -/

/-- `strlen`, with at most `bound` turns. -/
def strlen (m : Mem) : ℕ → ℕ → Option ℕ
  | 0, _ => none
  | bound + 1, s => if m s = 0 then some 0 else (strlen m bound (s + 1)).map (· + 1)

/-- The string at `s`, if it ends within `bound` characters. -/
def stringAt (m : Mem) : ℕ → ℕ → Option (List UInt8)
  | 0, _ => none
  | bound + 1, s => if m s = 0 then some [] else (stringAt m bound (s + 1)).map (m s :: ·)

/-- `strcmp` of the strings at `s₁` in `m` and at `s₂` in `m'`, with at most `bound` turns. -/
def strcmp (m m' : Mem) : ℕ → ℕ → ℕ → Option ℤ
  | 0, _, _ => none
  | bound + 1, s₁, s₂ =>
    if m s₁ ≠ 0 ∧ m s₁ = m' s₂ then strcmp m m' bound (s₁ + 1) (s₂ + 1)
    else some ((m s₁).toNat - (m' s₂).toNat)

/-- `strncmp` of the strings at `s₁` in `m` and at `s₂` in `m'`. -/
def strncmp (m m' : Mem) : ℕ → ℕ → ℕ → ℤ
  | 0, _, _ => 0
  | n + 1, s₁, s₂ =>
    if m s₁ ≠ 0 ∧ m s₁ = m' s₂ then strncmp m m' n (s₁ + 1) (s₂ + 1)
    else (m s₁).toNat - (m' s₂).toNat

theorem strlen_eq (h : StringAt m a s) (hb : s.length < bound) : strlen m bound a = some s.length := by
  induction s generalizing a bound with
  | nil =>
    obtain ⟨bound, rfl⟩ := Nat.exists_eq_add_one.2 hb
    rw [strlen, if_pos h.end]
    rfl
  | cons b s ih =>
    obtain ⟨bound, rfl⟩ := Nat.exists_eq_add_one.2 (Nat.zero_lt_of_lt hb)
    rw [strlen, if_neg h.head.2, ih h.tail (Nat.lt_of_succ_lt_succ hb)]
    rfl

theorem stringAt_eq (h : StringAt m a s) (hb : s.length < bound) : stringAt m bound a = some s := by
  induction s generalizing a bound with
  | nil =>
    obtain ⟨bound, rfl⟩ := Nat.exists_eq_add_one.2 hb
    rw [stringAt, if_pos h.end]
  | cons b s ih =>
    obtain ⟨bound, rfl⟩ := Nat.exists_eq_add_one.2 (Nat.zero_lt_of_lt hb)
    rw [stringAt, if_neg h.head.2, ih h.tail (Nat.lt_of_succ_lt_succ hb), h.head.1]
    rfl

theorem toNat_sub_eq_zero {b c : UInt8} : (b.toNat : ℤ) - c.toNat = 0 ↔ b = c := by
  rw [← UInt8.toNat_inj]
  omega

/-- `strcmp` returns zero exactly for equal strings. -/
theorem strcmp_spec (h : StringAt m a s) (h' : StringAt m' a' t) (hb : t.length < bound) :
    ∃ r, strcmp m m' bound a a' = some r ∧ (r = 0 ↔ s = t) := by
  induction s generalizing a a' t bound with
  | nil =>
    obtain ⟨bound, rfl⟩ := Nat.exists_eq_add_one.2 (Nat.zero_lt_of_lt hb)
    rw [strcmp, if_neg fun hand => hand.1 h.end]
    refine ⟨_, rfl, ?_⟩
    rw [toNat_sub_eq_zero, h.end]
    cases t with
    | nil => simp [h'.end]
    | cons c t => simp [Ne.symm h'.head.2]
  | cons b s ih =>
    obtain ⟨bound, rfl⟩ := Nat.exists_eq_add_one.2 (Nat.zero_lt_of_lt hb)
    rw [strcmp]
    cases t with
    | nil =>
      rw [if_neg fun hand => hand.1 (hand.2.trans h'.end)]
      refine ⟨_, rfl, ?_⟩
      rw [toNat_sub_eq_zero, h'.end]
      simp [h.head.2]
    | cons c t =>
      by_cases heq : m a = m' a'
      · obtain ⟨r, hr, hiff⟩ := ih h.tail h'.tail (Nat.lt_of_succ_lt_succ hb)
        have hbc : b = c := h.head.1.symm.trans (heq.trans h'.head.1)
        rw [if_pos ⟨h.head.2, heq⟩]
        refine ⟨r, hr, hiff.trans ?_⟩
        simp [hbc]
      · rw [if_neg fun hand => heq hand.2]
        refine ⟨_, rfl, ?_⟩
        rw [toNat_sub_eq_zero]
        refine iff_of_false heq fun hst => heq ?_
        rw [h.head.1, h'.head.1]
        exact (List.cons.inj hst).1

/-- `strncmp` returns zero exactly when the first `n` characters are equal. -/
theorem strncmp_eq_zero_iff (h : StringAt m a s) (h' : StringAt m' a' t) :
    strncmp m m' n a a' = 0 ↔ s.take n = t.take n := by
  induction n generalizing a a' s t with
  | zero => simp [strncmp]
  | succ n ih =>
    rw [strncmp]
    by_cases hand : m a ≠ 0 ∧ m a = m' a'
    · rw [if_pos hand]
      cases s with
      | nil => exact absurd h.end hand.1
      | cons b s =>
        cases t with
        | nil => exact absurd (hand.2.trans h'.end) hand.1
        | cons c t =>
          have hbc : b = c := h.head.1.symm.trans (hand.2.trans h'.head.1)
          rw [ih h.tail h'.tail]
          simp [hbc]
    · rw [if_neg hand, toNat_sub_eq_zero]
      cases s with
      | nil =>
        rw [h.end]
        cases t with
        | nil => simp [h'.end]
        | cons c t => simp [Ne.symm h'.head.2]
      | cons b s =>
        have hne : m a ≠ m' a' := fun heq => hand ⟨h.head.2, heq⟩
        refine iff_of_false hne fun hst => hne ?_
        cases t with
        | nil => exact nomatch hst
        | cons c t =>
          rw [h.head.1, h'.head.1]
          exact (List.cons.inj hst).1

end Ucore.CString
