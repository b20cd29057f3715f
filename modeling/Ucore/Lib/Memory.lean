import Mathlib.Algebra.Group.Nat.Defs
import Mathlib.Data.List.GetD
import Mathlib.Data.Nat.Notation
import Mathlib.Logic.Function.Basic

/-!
# Byte memory and index chains

A byte-addressed memory with little-endian 16-bit and 32-bit accesses, `memset` and `memcpy`, and the
singly linked lists that a program threads through an array of slots by storing in each slot the
index of the next.  `Chain next stop h is` says that from the index `h` the links visit `is` and end
at `stop`.
-/

namespace Ucore.Memory

/-- The bytes at all addresses. -/
abbrev Mem := ℕ → UInt8

/-- The 16-bit number at `a`. -/
def read16 (m : Mem) (a : ℕ) : ℕ := (m a).toNat + 256 * (m (a + 1)).toNat

/-- Store the 16-bit number `v` at `a`. -/
def write16 (m : Mem) (a v : ℕ) : Mem :=
  Function.update (Function.update m a (UInt8.ofNat v)) (a + 1) (UInt8.ofNat (v / 256))

/-- Set the `n` bytes from `a` on. -/
def memset (m : Mem) (a : ℕ) (b : UInt8) (n : ℕ) : Mem :=
  fun i => if a ≤ i ∧ i < a + n then b else m i

variable {m m' : Mem} {a v i n : ℕ}

theorem read16_lt (m : Mem) (a : ℕ) : read16 m a < 2 ^ 16 := by
  have h₁ := (m a).toNat_lt
  have h₂ := (m (a + 1)).toNat_lt
  rw [read16]
  omega

theorem read16_congr (h₀ : m' a = m a) (h₁ : m' (a + 1) = m (a + 1)) :
    read16 m' a = read16 m a := by
  rw [read16, read16, h₀, h₁]

/-- A stored number is read back. -/
theorem read16_write16 (hv : v < 2 ^ 16) : read16 (write16 m a v) a = v := by
  have hne : a ≠ a + 1 := by omega
  rw [read16, write16, Function.update_self, Function.update_of_ne hne, Function.update_self,
    UInt8.toNat_ofNat', UInt8.toNat_ofNat']
  omega

/-- Only the two bytes of the number change. -/
theorem write16_of_ne (h₀ : i ≠ a) (h₁ : i ≠ a + 1) : write16 m a v i = m i := by
  rw [write16, Function.update_of_ne h₁, Function.update_of_ne h₀]

theorem memset_of_not {b : UInt8} (h : ¬ (a ≤ i ∧ i < a + n)) : memset m a b n i = m i := if_neg h

/-! ### Copies and 32-bit numbers -/

/-- Copy `n` bytes from the start of `src` to `a`. -/
def memcpy (m : Mem) (a : ℕ) (src : Mem) (n : ℕ) : Mem :=
  fun i => if a ≤ i ∧ i < a + n then src (i - a) else m i

/-- The four bytes of `v`, at address 0. -/
def bytes32 (v : ℕ) : Mem := fun i => UInt8.ofNat (v / 256 ^ i)

/-- The 32-bit number at `a`. -/
def read32 (m : Mem) (a : ℕ) : ℕ :=
  (m a).toNat + 256 * (m (a + 1)).toNat + 65536 * (m (a + 2)).toNat + 16777216 * (m (a + 3)).toNat

variable {src : Mem}

theorem memcpy_of_mem (h₁ : a ≤ i) (h₂ : i < a + n) : memcpy m a src n i = src (i - a) :=
  if_pos ⟨h₁, h₂⟩

theorem memcpy_of_not (h : ¬ (a ≤ i ∧ i < a + n)) : memcpy m a src n i = m i := if_neg h

theorem read32_lt (m : Mem) (a : ℕ) : read32 m a < 2 ^ 32 := by
  have h₀ := (m a).toNat_lt
  have h₁ := (m (a + 1)).toNat_lt
  have h₂ := (m (a + 2)).toNat_lt
  have h₃ := (m (a + 3)).toNat_lt
  rw [read32]
  omega

theorem read32_congr (h : ∀ i, a ≤ i → i < a + 4 → m' i = m i) : read32 m' a = read32 m a := by
  rw [read32, read32, h a (by omega) (by omega), h (a + 1) (by omega) (by omega),
    h (a + 2) (by omega) (by omega), h (a + 3) (by omega) (by omega)]

/-- The same bytes at another address. -/
theorem read32_of_bytes {b : ℕ} (h : ∀ k < 4, m' (b + k) = m (a + k)) : read32 m' b = read32 m a := by
  have h₀ := h 0 (by omega)
  rw [Nat.add_zero, Nat.add_zero] at h₀
  rw [read32, read32, h₀, h 1 (by omega), h 2 (by omega), h 3 (by omega)]

theorem read32_shift (m : Mem) (a : ℕ) : read32 (fun i => m (a + i)) 0 = read32 m a := rfl

/-- Cleared memory holds zeros. -/
theorem read32_memset_zero {b : ℕ} (h₁ : a ≤ b) (h₂ : b + 4 ≤ a + n) :
    read32 (memset m a 0 n) b = 0 := by
  have hbyte : ∀ k < 4, memset m a 0 n (b + k) = 0 := fun k hk =>
    if_pos ⟨by omega, by omega⟩
  have h₀ := hbyte 0 (by omega)
  rw [Nat.add_zero] at h₀
  rw [read32, h₀, hbyte 1 (by omega), hbyte 2 (by omega), hbyte 3 (by omega)]
  rfl

/-- The number with the bytes of `v` is `v`. -/
theorem read32_eq (hv : v < 2 ^ 32) (h : ∀ k < 4, m (a + k) = bytes32 v k) : read32 m a = v := by
  have h₀ := h 0 (by omega)
  rw [Nat.add_zero] at h₀
  rw [read32, h₀, h 1 (by omega), h 2 (by omega), h 3 (by omega)]
  simp only [bytes32, UInt8.toNat_ofNat', Nat.reducePow, Nat.div_one]
  omega

/-- A number copied in is read back. -/
theorem read32_memcpy_self (hv : v < 2 ^ 32) : read32 (memcpy m a (bytes32 v) 4) a = v := by
  refine read32_eq hv ?_
  intro k hk
  rw [memcpy_of_mem (by omega) (by omega), Nat.add_sub_cancel_left]

/-- A number next to the copy is unchanged. -/
theorem read32_memcpy_of_apart {b : ℕ} (h : b + 4 ≤ a ∨ a + n ≤ b) :
    read32 (memcpy m a src n) b = read32 m b :=
  read32_congr fun i h₁ h₂ => memcpy_of_not (by omega)

/-! ### Arrays of 32-bit numbers -/

/-- The bytes of an array of 32-bit numbers, at address 0. -/
def words32 (f : ℕ → ℕ) : Mem := fun i => bytes32 (f (i / 4)) (i % 4)

theorem words32_word (f : ℕ → ℕ) {k : ℕ} (hk : k < 4) : words32 f (4 * i + k) = bytes32 (f i) k := by
  rw [words32]
  congr 2
  · omega
  · omega

theorem read32_words32 {f : ℕ → ℕ} (hv : f i < 2 ^ 32)
    (h : ∀ k < 4, m (4 * i + k) = words32 f (4 * i + k)) : read32 m (4 * i) = f i := by
  refine read32_eq hv ?_
  intro k hk
  rw [h k hk, words32_word f hk]

/-- A 32-bit number is two 16-bit numbers. -/
theorem read16_eq_read32 (m : Mem) (a : ℕ) :
    read16 m a = read32 m a % 2 ^ 16 ∧ read16 m (a + 2) = read32 m a / 2 ^ 16 := by
  have h₀ := (m a).toNat_lt
  have h₁ := (m (a + 1)).toNat_lt
  have h₂ := (m (a + 2)).toNat_lt
  have h₃ := (m (a + 3)).toNat_lt
  rw [read16, read16, read32, Nat.add_assoc a 2 1]
  constructor
  · omega
  · omega

/-! ### Strings -/

/-- Copy the bytes of a string to `a`. -/
def store (m : Mem) (a : ℕ) (l : List UInt8) : Mem := memcpy m a (fun i => l.getD i 0) l.length

variable {l l' : List UInt8}

theorem store_of_mem (hi : i < l.length) : store m a l (a + i) = l[i] := by
  rw [store, memcpy_of_mem (by omega) (by omega), Nat.add_sub_cancel_left]
  exact List.getD_eq_getElem l 0 hi

@[simp] theorem store_nil : store m a [] = m := by
  funext i
  exact memcpy_of_not (by rw [List.length_nil]; omega)

theorem store_of_not (h : ¬ (a ≤ i ∧ i < a + l.length)) : store m a l i = m i := memcpy_of_not h

/-- Two strings next to each other, the second one first. -/
theorem store_append : store (store m (a + l.length) l') a l = store m a (l ++ l') := by
  funext i
  by_cases h₁ : a ≤ i ∧ i < a + l.length
  · obtain ⟨k, rfl⟩ := Nat.exists_eq_add_of_le h₁.1
    have hk : k < l.length := by omega
    rw [store_of_mem hk, store_of_mem (by rw [List.length_append]; omega),
      List.getElem_append_left hk]
  rw [store_of_not h₁]
  by_cases h₂ : a + l.length ≤ i ∧ i < a + l.length + l'.length
  · obtain ⟨k, rfl⟩ := Nat.exists_eq_add_of_le h₂.1
    have hk : k < l'.length := by omega
    rw [store_of_mem hk, Nat.add_assoc a, store_of_mem (by rw [List.length_append]; omega),
      List.getElem_append_right (by omega)]
    simp only [Nat.add_sub_cancel_left]
  · rw [store_of_not h₂, store_of_not (by rw [List.length_append]; omega)]

/-! ### Chains -/

/-- From `h` the links `next` visit the indices of the list and end at `stop`. -/
def Chain (next : ℕ → ℕ) (stop : ℕ) : ℕ → List ℕ → Prop
  | h, [] => h = stop
  | h, i :: is => h = i ∧ i ≠ stop ∧ Chain next stop (next i) is

variable {next next' : ℕ → ℕ} {stop h : ℕ}

/-- Only the links of the visited indices matter. -/
theorem Chain.congr : ∀ {is : List ℕ} {h : ℕ}, Chain next stop h is →
    (∀ i ∈ is, next' i = next i) → Chain next' stop h is
  | [], _, hc, _ => hc
  | i :: is, _, hc, hn => ⟨hc.1, hc.2.1, by
      rw [hn i List.mem_cons_self]
      exact hc.2.2.congr fun j hj => hn j (List.mem_cons_of_mem i hj)⟩

/-- The links `i ↦ i + 1` up to the last of `n` slots. -/
theorem chain_range (hn : n ≤ stop) (hnext : ∀ i < n, next i = if i + 1 < n then i + 1 else stop) :
    ∀ k i, i + k = n → Chain next stop (if i < n then i else stop) (List.range' i k)
  | 0, i, hk => by
    rw [if_neg (by omega)]
    rfl
  | k + 1, i, hk => by
    rw [if_pos (by omega), List.range'_succ]
    refine ⟨rfl, by omega, ?_⟩
    rw [hnext i (by omega)]
    exact chain_range hn hnext k (i + 1) (by omega)

end Ucore.Memory
