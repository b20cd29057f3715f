import Mathlib.Algebra.Group.Int.Defs
import Ucore.Lib.CString

/-!
# The device tree (`lab8/kern/driver/dtb.c`)

The walk over the tokens of the structure block reads memory at the pointer `struct_ptr`.  Each loop has a
bound on its turns, `none` stands for a loop that is not done by then.
-/

namespace Ucore.Dtb

open CString Memory

def FDT_BEGIN_NODE : ℕ := 1

def FDT_END_NODE : ℕ := 2

def FDT_PROP : ℕ := 3

def FDT_NOP : ℕ := 4

def FDT_END : ℕ := 9

def FDT_MAGIC : ℕ := 0xd00dfeed

/-- The characters of `"memory"`. -/
def memoryName : List UInt8 := [0x6d, 0x65, 0x6d, 0x6f, 0x72, 0x79]

/-- The characters of `"reg"`. -/
def regName : List UInt8 := [0x72, 0x65, 0x67]

/-- `fdt32_to_cpu`. -/
def fdt32ToCpu (x : BitVec 32) : BitVec 32 :=
  ((x &&& 0xff) <<< 24) ||| (((x >>> 8) &&& 0xff) <<< 16) ||| (((x >>> 16) &&& 0xff) <<< 8) |||
    ((x >>> 24) &&& 0xff)

/-- `fdt64_to_cpu`. -/
def fdt64ToCpu (x : BitVec 64) : BitVec 64 :=
  ((fdt32ToCpu ((x &&& 0xffffffff).setWidth 32)).setWidth 64 <<< 32) |||
    (fdt32ToCpu ((x >>> 32).setWidth 32)).setWidth 64

/-- `*(const uint32_t *)a`. -/
def load32 (m : Mem) (a : ℕ) : BitVec 32 := BitVec.ofNat 32 (read32 m a)

/-- `*(const uint64_t *)a`. -/
def load64 (m : Mem) (a : ℕ) : BitVec 64 := BitVec.ofNat 64 (read32 m a + 2 ^ 32 * read32 m (a + 4))

/-- `(p + n) & ~3` on addresses. -/
def skip (p : ℕ) (n : ℤ) : ℕ := ((p + n) % 2 ^ 64).toNat / 4 * 4

/-- `strlen(name)` as an `int`. -/
def nameLen (len : ℕ) : ℤ := (BitVec.ofNat 32 len).toInt

/-- The return value, and what is stored through `mem_base` and `mem_size`. -/
abbrev Found := ℤ × Option (BitVec 64 × BitVec 64)

/-- The loop of `extract_memory_info`, with at most `turns` turns; `bound` is for the strings. -/
def extractLoop (m : Mem) (stringsBase bound : ℕ) : ℕ → ℕ → Bool → Option Found
  | 0, _, _ => none
  | turns + 1, structPtr, inMemoryNode =>
    let token := (fdt32ToCpu (load32 m structPtr)).toNat
    let structPtr := structPtr + 4
    if token = FDT_BEGIN_NODE then do
      let len ← strlen m bound structPtr
      let inMemoryNode := strncmp m (literal memoryName) 6 structPtr 0 = 0 || inMemoryNode
      extractLoop m stringsBase bound turns (skip structPtr (nameLen len + 4)) inMemoryNode
    else if token = FDT_END_NODE then extractLoop m stringsBase bound turns structPtr false
    else if token = FDT_PROP then do
      let propLen := (fdt32ToCpu (load32 m structPtr)).toNat
      let propNameoff := (fdt32ToCpu (load32 m (structPtr + 4))).toNat
      let propName := stringsBase + propNameoff
      let propData := structPtr + 8
      -- the name is compared in a memory node only
      let isReg ←
        if inMemoryNode then (strcmp m (literal regName) bound propName 0).map (· == 0)
        else some false
      if isReg && propLen ≥ 16 then
        some (0, some (fdt64ToCpu (load64 m propData), fdt64ToCpu (load64 m (propData + 8))))
      else extractLoop m stringsBase bound turns (skip propData (propLen + 3)) inMemoryNode
    else if token = FDT_NOP then extractLoop m stringsBase bound turns structPtr inMemoryNode
    else some (-1, none)

/-- `extract_memory_info`; `off_dt_struct` and `off_dt_strings` are the third and fourth word of the header. -/
def extractMemoryInfo (m : Mem) (dtbVaddr turns bound : ℕ) : Option Found :=
  let structOffset := (fdt32ToCpu (load32 m (dtbVaddr + 8))).toNat
  let stringsOffset := (fdt32ToCpu (load32 m (dtbVaddr + 12))).toNat
  extractLoop m (dtbVaddr + stringsOffset) bound turns (dtbVaddr + structOffset) false

/-! ### Big-endian numbers -/

/-- The four bytes of a number, from the highest to the lowest. -/
def be32 (n : ℕ) : List UInt8 :=
  [UInt8.ofNat (n / 2 ^ 24), UInt8.ofNat (n / 2 ^ 16), UInt8.ofNat (n / 2 ^ 8), UInt8.ofNat n]

/-- The number that a sequence of bytes stands for, from the highest to the lowest. -/
def beValue (bs : List UInt8) : ℕ := bs.foldl (fun v b => 256 * v + b.toNat) 0

variable {m : Mem} {a n : ℕ}

@[simp] theorem length_be32 (n : ℕ) : (be32 n).length = 4 := rfl

theorem or_eq_add {a b k : ℕ} (hb : b < 2 ^ k) : a * 2 ^ k ||| b = a * 2 ^ k + b := by
  rw [Nat.mul_comm, Nat.two_pow_add_eq_or_of_lt hb]

/-- `fdt32_to_cpu` turns four bytes around. -/
theorem fdt32ToCpu_bytes {b₀ b₁ b₂ b₃ : ℕ} (h₀ : b₀ < 256) (h₁ : b₁ < 256) (h₂ : b₂ < 256)
    (h₃ : b₃ < 256) :
    (fdt32ToCpu (BitVec.ofNat 32 (b₀ + 256 * b₁ + 65536 * b₂ + 16777216 * b₃))).toNat =
      16777216 * b₀ + 65536 * b₁ + 256 * b₂ + b₃ := by
  have hmask : ∀ n : ℕ, n &&& 255 = n % 256 := fun n => Nat.and_two_pow_sub_one_eq_mod n 8
  have hff : (0xff : BitVec 32).toNat = 255 := rfl
  simp only [fdt32ToCpu, BitVec.toNat_or, BitVec.toNat_shiftLeft, BitVec.toNat_and,
    BitVec.toNat_ushiftRight, hff, hmask, Nat.shiftLeft_eq, Nat.shiftRight_eq_div_pow,
    BitVec.toNat_ofNat]
  generalize hn : (b₀ + 256 * b₁ + 65536 * b₂ + 16777216 * b₃) % 2 ^ 32 = n
  have e₀ : n % 256 = b₀ := by omega
  have e₁ : n / 2 ^ 8 % 256 = b₁ := by omega
  have e₂ : n / 2 ^ 16 % 256 = b₂ := by omega
  have e₃ : n / 2 ^ 24 % 256 = b₃ := by omega
  rw [e₀, e₁, e₂, e₃, Nat.mod_eq_of_lt (a := b₀ * 2 ^ 24) (by omega),
    Nat.mod_eq_of_lt (a := b₁ * 2 ^ 16) (by omega), Nat.mod_eq_of_lt (a := b₂ * 2 ^ 8) (by omega),
    Nat.or_assoc, Nat.or_assoc, or_eq_add (a := b₂) (by omega), or_eq_add (a := b₁) (by omega),
    or_eq_add (a := b₀) (by omega)]
  omega

theorem fdt32ToCpu_load32 (m : Mem) (a : ℕ) : (fdt32ToCpu (load32 m a)).toNat =
    16777216 * (m a).toNat + 65536 * (m (a + 1)).toNat + 256 * (m (a + 2)).toNat + (m (a + 3)).toNat :=
  fdt32ToCpu_bytes (m a).toNat_lt (m (a + 1)).toNat_lt (m (a + 2)).toNat_lt (m (a + 3)).toNat_lt

/-- A stored 32-bit number is read back. -/
theorem fdt32ToCpu_of_at (h : At m a (be32 n)) (hn : n < 2 ^ 32) : (fdt32ToCpu (load32 m a)).toNat = n := by
  obtain ⟨h₀, h₁, h₂, h₃, -⟩ := h
  rw [fdt32ToCpu_load32, h₀, h₁, h₂, h₃]
  simp only [UInt8.toNat_ofNat']
  omega

/-- `fdt64_to_cpu` of a 64-bit load reads two 32-bit numbers, the high one first. -/
theorem fdt64ToCpu_load64 (m : Mem) (a : ℕ) : fdt64ToCpu (load64 m a) =
    BitVec.ofNat 64 (2 ^ 32 * (fdt32ToCpu (load32 m a)).toNat + (fdt32ToCpu (load32 m (a + 4))).toNat) := by
  have hlo : (load64 m a &&& 0xffffffff).setWidth 32 = load32 m a := by
    apply BitVec.eq_of_toNat_eq
    have hmask : ∀ n : ℕ, n &&& 4294967295 = n % 2 ^ 32 := fun n => Nat.and_two_pow_sub_one_eq_mod n 32
    have hff : (0xffffffff : BitVec 64).toNat = 4294967295 := rfl
    have := read32_lt m a
    have := read32_lt m (a + 4)
    simp only [load64, load32, BitVec.toNat_setWidth, BitVec.toNat_and, BitVec.toNat_ofNat, hff, hmask]
    omega
  have hhi : (load64 m a >>> 32).setWidth 32 = load32 m (a + 4) := by
    apply BitVec.eq_of_toNat_eq
    have := read32_lt m a
    have := read32_lt m (a + 4)
    simp only [load64, load32, BitVec.toNat_setWidth, BitVec.toNat_ushiftRight, BitVec.toNat_ofNat,
      Nat.shiftRight_eq_div_pow]
    omega
  rw [fdt64ToCpu, hlo, hhi]
  have hx := (fdt32ToCpu (load32 m a)).isLt
  have hy := (fdt32ToCpu (load32 m (a + 4))).isLt
  apply BitVec.eq_of_toNat_eq
  simp only [BitVec.toNat_or, BitVec.toNat_shiftLeft, BitVec.toNat_setWidth, BitVec.toNat_ofNat,
    Nat.shiftLeft_eq]
  generalize (fdt32ToCpu (load32 m a)).toNat = x at hx
  generalize (fdt32ToCpu (load32 m (a + 4))).toNat = y at hy
  rw [Nat.mod_eq_of_lt (a := x) (by omega), Nat.mod_eq_of_lt (a := y) (by omega),
    Nat.mod_eq_of_lt (a := x * 2 ^ 32) (by omega), or_eq_add hy]
  omega

/-- Eight bytes in memory, read as a 64-bit number. -/
theorem fdt64ToCpu_of_at {bs : List UInt8} (h : At m a bs) (hlen : bs.length = 8) :
    fdt64ToCpu (load64 m a) = BitVec.ofNat 64 (beValue bs) := by
  match bs, hlen with
  | [b₀, b₁, b₂, b₃, b₄, b₅, b₆, b₇], _ =>
    obtain ⟨h₀, h₁, h₂, h₃, h₄, h₅, h₆, h₇, -⟩ := h
    rw [fdt64ToCpu_load64, fdt32ToCpu_load32, fdt32ToCpu_load32, h₀, h₁, h₂, h₃, h₄, h₅, h₆, h₇]
    congr 1
    simp only [beValue, List.foldl_cons, List.foldl_nil]
    omega

end Ucore.Dtb
