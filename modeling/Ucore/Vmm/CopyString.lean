import Ucore.Vmm.Check

/-!
# Copying a string from the user (`lab8/kern/mm/vmm.c`)

`copy_string` checks and copies a string piece by piece, cut where pages end.  Memory is one function
of the addresses, for the user and the kernel; addresses wrap.  The result says what was checked and
read, for **`copyString_exact`**.

Where the destination overlaps the string, a piece may be copied over the zero byte before this is read
(`copyString_overlap`); no zero byte appears, since the pieces that are copied whole have none.
-/

namespace Ucore.Vmm

abbrev Memory := Uintptr → UInt8

/-- `memcpy`. -/
def memcpy (mem : Memory) (dst src : Uintptr) : ℕ → Memory
  | 0 => mem
  | n + 1 => memcpy (Function.update mem dst (mem src)) (dst + 1) (src + 1) n

/-- `memmove`: it begins at the end where it has to. -/
def memmove (mem : Memory) (dst src : Uintptr) (n : ℕ) : Memory := fun a =>
  if (a - dst).toNat < n then mem (src + (a - dst)) else mem a

/-- `strnlen`. -/
def strnlen (mem : Memory) (s : Uintptr) : ℕ → ℕ
  | 0 => 0
  | len + 1 => if mem s = 0 then 0 else strnlen mem (s + 1) len + 1

/-- The addresses from `a` on. -/
def bytesFrom (a : Uintptr) (n : ℕ) : List Uintptr := (List.range n).map fun i => a + BitVec.ofNat 64 i

structure CopyResult where
  ret : Bool
  mem : Memory
  mm : Option MmStruct
  /-- the ranges that `user_mem_check` has accepted -/
  checked : List (Uintptr × Uintptr)
  /-- the bytes that `strnlen` and `memcpy` have read -/
  reads : List Uintptr

/-- `user_mem_check` accepts no empty range. -/
theorem pos_of_userMemCheck {mm mm' : Option MmStruct} {addr len : Uintptr} {write : Bool}
    (h : userMemCheck mm addr len write = (true, mm')) : 0 < len.toNat := by
  have hlt : addr < addr + len → 0 < len.toNat := by
    intro hlt
    rw [Nat.pos_iff_ne_zero]
    intro hzero
    rw [BitVec.lt_def, BitVec.toNat_add, hzero, Nat.add_zero, Nat.mod_eq_of_lt addr.isLt] at hlt
    exact lt_irrefl _ hlt
  cases mm with
  | some mm =>
    rw [userMemCheck] at h
    split at h
    case isTrue => cases h
    case isFalse haccess =>
      rw [Bool.not_eq_true, Bool.not_eq_false'] at haccess
      exact ((userAccess_range addr len).mp haccess).1
  | none =>
    have haccess : kernAccess addr (addr + len) = true := (Prod.mk.inj h).1
    simp only [kernAccess, Bool.and_eq_true, decide_eq_true_eq] at haccess
    exact hlt haccess.1.2

/-- The loop of `copy_string`. -/
def copyStringLoop (mm : Option MmStruct) (mem : Memory) (dst src part maxn : Uintptr) : CopyResult :=
  let part := if part > maxn then maxn else part
  match hcheck : userMemCheck mm src part false with
  | (false, mm) => ⟨false, mem, mm, [], []⟩
  | (true, mm) =>
    have _hpos := pos_of_userMemCheck hcheck
    let alen := strnlen mem src part.toNat
    let scanned := bytesFrom src (min (alen + 1) part.toNat)
    if alen < part.toNat then
      ⟨true, memcpy mem dst src (alen + 1), mm, [(src, part)], scanned ++ bytesFrom src (alen + 1)⟩
    else if part = maxn then ⟨false, mem, mm, [(src, part)], scanned⟩
    else
      let r := copyStringLoop mm (memcpy mem dst src part.toNat) (dst + part) (src + part) PGSIZE
        (maxn - part)
      { r with
        checked := (src, part) :: r.checked
        reads := scanned ++ bytesFrom src part.toNat ++ r.reads }
termination_by maxn.toNat
decreasing_by
  have hle : part.toNat ≤ maxn.toNat := by
    show (if _ > maxn then maxn else _ : Uintptr).toNat ≤ _
    split
    · exact le_rfl
    · rename_i hnot
      exact not_lt.mp hnot
  rw [BitVec.toNat_sub_of_le hle]
  omega

/-- `copy_string`. -/
def copyString (mm : Option MmStruct) (mem : Memory) (dst src maxn : Uintptr) : CopyResult :=
  copyStringLoop mm mem dst src (roundDown (src + PGSIZE) - src) maxn

/-! ## What is promised -/

/-- The first zero byte of the string. -/
def FirstZero (mem : Memory) (src : Uintptr) (k : ℕ) : Prop :=
  mem (src + BitVec.ofNat 64 k) = 0 ∧ ∀ i < k, mem (src + BitVec.ofNat 64 i) ≠ 0

/-- A piece of `[src, src + maxn)` begins at the offset: at 0, and where a page begins. -/
def IsPiece (src : Uintptr) (maxn o : ℕ) : Prop :=
  o < maxn ∧ (o = 0 ∨ (src.toNat + o) % 4096 = 0)

instance decidableIsPiece (src : Uintptr) (maxn o : ℕ) : Decidable (IsPiece src maxn o) :=
  inferInstanceAs (Decidable (_ ∧ _))

/-- The length of this piece. -/
def pieceLen (src : Uintptr) (maxn o : ℕ) : ℕ := min (4096 - (src.toNat + o) % 4096) (maxn - o)

/-- The pieces up to the one with `src[k]` pass `user_mem_check`. -/
def PiecesPass (mm : Option MmStruct) (src : Uintptr) (maxn k : ℕ) : Prop :=
  ∀ o ≤ k, IsPiece src maxn o →
    (userMemCheck mm (src + BitVec.ofNat 64 o) (BitVec.ofNat 64 (pieceLen src maxn o)) false).1 = true

/-- What `copy_string` keeps to: it writes `dst[0..maxn)`, and reads bytes of pieces that pass. -/
structure Confined (mm : Option MmStruct) (mem : Memory) (dst src : Uintptr) (maxn : ℕ)
    (r : CopyResult) : Prop where
  frame : ∀ a, (∀ i < maxn, a ≠ dst + BitVec.ofNat 64 i) → r.mem a = mem a
  pieces : ∀ c ∈ r.checked, (userMemCheck mm c.1 c.2 false).1 = true ∧ ∃ o, IsPiece src maxn o ∧
    c = (src + BitVec.ofNat 64 o, BitVec.ofNat 64 (pieceLen src maxn o))
  reads : ∀ a ∈ r.reads, ∃ c ∈ r.checked, a ∈ bytesFrom c.1 c.2.toNat

/-- The two places share no byte. -/
def Apart (a b : Uintptr) (n : ℕ) : Prop :=
  ∀ i < n, ∀ j < n, a + BitVec.ofNat 64 i ≠ b + BitVec.ofNat 64 j

/-- What `copy_string` does. -/
structure Copies (mm : Option MmStruct) (mem : Memory) (dst src : Uintptr) (maxn : ℕ)
    (r : CopyResult) : Prop extends Confined mm mem dst src maxn r where
  found : r.ret = true → ∃ k < maxn, FirstZero mem src k ∧ PiecesPass mm src maxn k
  copied : ∀ k < maxn, FirstZero mem src k → PiecesPass mm src maxn k → Apart src dst (k + 1) →
    r.ret = true ∧ ∀ i ≤ k, r.mem (dst + BitVec.ofNat 64 i) = mem (src + BitVec.ofNat 64 i)

/-! ## The parts -/

/-- The invariants of `vmm.c`, where there is an address space. -/
def Kept (mm : Option MmStruct) : Prop :=
  ∀ m ∈ mm, Ordered m.mmapList ∧ ∀ v ∈ m.mmapCache, v ∈ m.mmapList

theorem userMemCheck_keeps {mm mm' : Option MmStruct} {addr len : Uintptr} {write ok : Bool}
    (h : Kept mm) (hrun : userMemCheck mm addr len write = (ok, mm')) :
    Kept mm' ∧ mm'.map MmStruct.mmapList = mm.map MmStruct.mmapList := by
  cases mm with
  | none =>
    cases hrun
    exact ⟨h, rfl⟩
  | some m =>
    obtain ⟨hordered, hcached⟩ := h m rfl
    rw [userMemCheck] at hrun
    split at hrun
    case isTrue =>
      cases hrun
      exact ⟨h, rfl⟩
    case isFalse haccess =>
      rw [Bool.not_eq_true, Bool.not_eq_false'] at haccess
      obtain ⟨hpos, hlow, hhigh⟩ := (userAccess_range addr len).mp haccess
      have hstop : (addr + len).toNat ≤ 0x80000000 := by
        rw [BitVec.toNat_add]
        omega
      obtain ⟨-, hlist, hcached'⟩ := memCheckLoop_spec write m addr (addr + len) hordered hcached hstop
      cases hrun
      refine ⟨fun m' hm' => ?_, congrArg some hlist⟩
      cases hm'
      rw [hlist]
      exact ⟨hordered, hcached'⟩

/-- The cache does not matter. -/
theorem userMemCheck_congr {mm mm' : Option MmStruct} (h : Kept mm) (h' : Kept mm')
    (hsame : mm'.map MmStruct.mmapList = mm.map MmStruct.mmapList) (addr len : Uintptr)
    (write : Bool) : (userMemCheck mm' addr len write).1 = (userMemCheck mm addr len write).1 := by
  cases mm with
  | none =>
    cases mm' with
    | none => rfl
    | some m' => exact nomatch hsame
  | some m =>
    cases mm' with
    | none => exact nomatch hsame
    | some m' =>
      have hlist : m'.mmapList = m.mmapList := Option.some.inj hsame
      obtain ⟨ok, mm₁, hrun, hiff, -⟩ :=
        userMemCheck_spec m (h m rfl).1 (h m rfl).2 addr len write
      obtain ⟨ok', mm₂, hrun', hiff', -⟩ :=
        userMemCheck_spec m' (h' m' rfl).1 (h' m' rfl).2 addr len write
      rw [hrun, hrun']
      rw [hlist] at hiff'
      exact Bool.eq_iff_iff.mpr (hiff'.trans hiff.symm)

theorem add_ofNat (a : Uintptr) (i j : ℕ) :
    a + BitVec.ofNat 64 i + BitVec.ofNat 64 j = a + BitVec.ofNat 64 (i + j) := by
  rw [BitVec.add_assoc, ← BitVec.ofNat_add]

theorem add_one_ofNat (a : Uintptr) (i : ℕ) :
    a + 1 + BitVec.ofNat 64 i = a + BitVec.ofNat 64 (i + 1) := by
  rw [Nat.add_comm i 1]
  exact add_ofNat a 1 i

theorem mem_bytesFrom {a b : Uintptr} {n : ℕ} :
    b ∈ bytesFrom a n ↔ ∃ i < n, b = a + BitVec.ofNat 64 i := by
  rw [bytesFrom, List.mem_map]
  constructor
  · rintro ⟨i, hi, rfl⟩
    exact ⟨i, List.mem_range.mp hi, rfl⟩
  · rintro ⟨i, hi, rfl⟩
    exact ⟨i, List.mem_range.mpr hi, rfl⟩

theorem bytesFrom_subset {a : Uintptr} {m n : ℕ} (h : m ≤ n) : bytesFrom a m ⊆ bytesFrom a n := by
  intro b hb
  obtain ⟨i, hi, rfl⟩ := mem_bytesFrom.mp hb
  exact mem_bytesFrom.mpr ⟨i, hi.trans_le h, rfl⟩

/-- `strnlen` finds the first zero byte, if it is among the first `n`. -/
theorem strnlen_spec (mem : Memory) (s : Uintptr) (n : ℕ) :
    strnlen mem s n < n ∧ FirstZero mem s (strnlen mem s n) ∨
      strnlen mem s n = n ∧ ∀ i < n, mem (s + BitVec.ofNat 64 i) ≠ 0 := by
  induction n generalizing s with
  | zero => exact .inr ⟨rfl, fun i hi => absurd hi (Nat.not_lt_zero i)⟩
  | succ n ih =>
    have hzero : s + BitVec.ofNat 64 0 = s := BitVec.add_zero s
    rw [strnlen]
    by_cases hs : mem s = 0
    · rw [if_pos hs]
      refine .inl ⟨Nat.succ_pos n, ?_, fun i hi => absurd hi (Nat.not_lt_zero i)⟩
      rw [hzero]
      exact hs
    · rw [if_neg hs]
      have hall : ∀ m, (∀ i < m, mem (s + 1 + BitVec.ofNat 64 i) ≠ 0) →
          ∀ i < m + 1, mem (s + BitVec.ofNat 64 i) ≠ 0 := by
        intro m hm i hi
        cases i with
        | zero =>
          rw [hzero]
          exact hs
        | succ i =>
          rw [← add_one_ofNat]
          exact hm i (Nat.lt_of_succ_lt_succ hi)
      rcases ih (s + 1) with ⟨hlt, hfound, hbefore⟩ | ⟨heq, hbefore⟩
      · refine .inl ⟨Nat.succ_lt_succ hlt, ?_, hall _ hbefore⟩
        rw [← add_one_ofNat]
        exact hfound
      · exact .inr ⟨congrArg (· + 1) heq, hall _ hbefore⟩

theorem exists_firstZero {mem : Memory} {src : Uintptr} {k : ℕ} (hk : mem (src + BitVec.ofNat 64 k) = 0) :
    ∃ k₀ ≤ k, FirstZero mem src k₀ :=
  have hex : ∃ k, mem (src + BitVec.ofNat 64 k) = 0 := ⟨k, hk⟩
  ⟨Nat.find hex, Nat.find_min' hex hk, Nat.find_spec hex, fun _ hi => Nat.find_min hex hi⟩

theorem FirstZero.unique {mem : Memory} {src : Uintptr} {k l : ℕ} (hk : FirstZero mem src k)
    (hl : FirstZero mem src l) : k = l := by
  rcases Nat.lt_trichotomy k l with hlt | heq | hgt
  · exact absurd hk.1 (hl.2 k hlt)
  · exact heq
  · exact absurd hl.1 (hk.2 l hgt)

/-! ## Where pieces begin -/

variable {src part : Uintptr} {maxn o : ℕ}

/-- The distance to the next page. -/
theorem part_first (src : Uintptr) :
    (roundDown (src + PGSIZE) - src).toNat = 4096 - src.toNat % 4096 := by
  have hs := src.isLt
  have hdown := toNat_roundDown (src + PGSIZE)
  have hsum : (src + PGSIZE).toNat = (src.toNat + 4096) % 2 ^ 64 := BitVec.toNat_add ..
  rw [BitVec.toNat_sub, hdown, hsum]
  omega

theorem toNat_add_mod (src part : Uintptr) (o : ℕ) :
    ((src + part).toNat + o) % 4096 = (src.toNat + (part.toNat + o)) % 4096 := by
  rw [BitVec.toNat_add]
  omega

/-- The piece at the end of a page is followed by one that begins with a page. -/
theorem isPiece_next (hpart : part.toNat = 4096 - src.toNat % 4096) (hlt : part.toNat < maxn) :
    IsPiece (src + part) (maxn - part.toNat) o ↔ IsPiece src maxn (part.toNat + o) := by
  rw [IsPiece, IsPiece, toNat_add_mod]
  omega

theorem pieceLen_next :
    pieceLen (src + part) (maxn - part.toNat) o = pieceLen src maxn (part.toNat + o) := by
  rw [pieceLen, pieceLen, toNat_add_mod, Nat.sub_sub]

theorem isPiece_cases (hpart : part.toNat = 4096 - src.toNat % 4096) (ho : IsPiece src maxn o) :
    o = 0 ∨ part.toNat ≤ o := by
  rw [IsPiece] at ho
  omega

theorem pieceLen_zero (hpart : part.toNat = 4096 - src.toNat % 4096) :
    pieceLen src maxn 0 = min part.toNat maxn := by
  rw [pieceLen, hpart]
  rfl

/-! ## Memory -/

theorem offset_inj {a : Uintptr} {i j : ℕ} (hi : i < 2 ^ 64) (hj : j < 2 ^ 64)
    (h : a + BitVec.ofNat 64 i = a + BitVec.ofNat 64 j) : i = j := by
  have heq : BitVec.ofNat 64 i = BitVec.ofNat 64 j := by simpa using h
  have hnat := congrArg BitVec.toNat heq
  rwa [BitVec.toNat_ofNat, BitVec.toNat_ofNat, Nat.mod_eq_of_lt hi, Nat.mod_eq_of_lt hj] at hnat

/-- Bytes outside the destination stay. -/
theorem memcpy_frame (mem : Memory) {dst src a : Uintptr} {n : ℕ}
    (ha : ∀ i < n, a ≠ dst + BitVec.ofNat 64 i) : memcpy mem dst src n a = mem a := by
  induction n generalizing mem dst src with
  | zero => rfl
  | succ n ih =>
    have hzero : dst + BitVec.ofNat 64 0 = dst := BitVec.add_zero dst
    have hne : a ≠ dst := hzero ▸ ha 0 (Nat.succ_pos n)
    have hnext : ∀ i < n, a ≠ dst + 1 + BitVec.ofNat 64 i := by
      intro i hi
      rw [add_one_ofNat]
      exact ha _ (Nat.succ_lt_succ hi)
    rw [memcpy, ih _ hnext, Function.update_of_ne hne]

/-- The bytes of the source arrive, where none is overwritten before it is read. -/
theorem memcpy_at (mem : Memory) {dst src : Uintptr} {n i : ℕ} (hi : i < n) (hn : n ≤ 2 ^ 64)
    (hapart : Apart src dst n) :
    memcpy mem dst src n (dst + BitVec.ofNat 64 i) = mem (src + BitVec.ofNat 64 i) := by
  induction n generalizing mem dst src i with
  | zero => exact absurd hi (Nat.not_lt_zero i)
  | succ n ih =>
    have hzero : ∀ a : Uintptr, a + BitVec.ofNat 64 0 = a := BitVec.add_zero
    rw [memcpy]
    cases i with
    | zero =>
      have hself : ∀ k < n, dst + BitVec.ofNat 64 0 ≠ dst + 1 + BitVec.ofNat 64 k := by
        intro k hk heq
        rw [add_one_ofNat] at heq
        exact absurd (offset_inj (by omega) (by omega) heq) (Nat.succ_ne_zero k).symm
      rw [memcpy_frame _ hself, hzero, hzero, Function.update_self]
    | succ i =>
      have hrest : Apart (src + 1) (dst + 1) n := by
        intro k hk j hj
        rw [add_one_ofNat, add_one_ofNat]
        exact hapart _ (Nat.succ_lt_succ hk) _ (Nat.succ_lt_succ hj)
      have hne : src + BitVec.ofNat 64 (i + 1) ≠ dst := hzero dst ▸ hapart _ hi 0 (Nat.succ_pos n)
      rw [← add_one_ofNat, ih _ (Nat.lt_of_succ_lt_succ hi) (Nat.le_of_succ_le hn) hrest, add_one_ofNat,
        Function.update_of_ne hne]

/-- Where no byte of the source is 0, `memcpy` makes none 0, also if it overwrites the source. -/
theorem memcpy_zero {mem : Memory} {dst src a : Uintptr} {n : ℕ}
    (hne : ∀ i < n, mem (src + BitVec.ofNat 64 i) ≠ 0) (h : memcpy mem dst src n a = 0) : mem a = 0 := by
  induction n generalizing mem dst src with
  | zero => exact h
  | succ n ih =>
    have hfirst : mem src ≠ 0 := BitVec.add_zero src ▸ hne 0 (Nat.succ_pos n)
    have hrest : ∀ i < n, Function.update mem dst (mem src) (src + 1 + BitVec.ofNat 64 i) ≠ 0 := by
      intro i hi
      rw [add_one_ofNat]
      by_cases heq : src + BitVec.ofNat 64 (i + 1) = dst
      · rw [heq, Function.update_self]
        exact hfirst
      · rw [Function.update_of_ne heq]
        exact hne _ (Nat.succ_lt_succ hi)
    have hzero := ih hrest h
    by_cases ha : a = dst
    · rw [ha, Function.update_self] at hzero
      exact absurd hzero hfirst
    · rwa [Function.update_of_ne ha] at hzero

theorem memmove_at (mem : Memory) (dst src : Uintptr) {n i : ℕ} (hi : i < n) (hn : n ≤ 2 ^ 64) :
    memmove mem dst src n (dst + BitVec.ofNat 64 i) = mem (src + BitVec.ofNat 64 i) := by
  have hsub : dst + BitVec.ofNat 64 i - dst = BitVec.ofNat 64 i := by
    rw [BitVec.add_comm, BitVec.add_sub_cancel]
  have hnat : (BitVec.ofNat 64 i).toNat = i := by
    rw [BitVec.toNat_ofNat, Nat.mod_eq_of_lt (hi.trans_le hn)]
  rw [memmove, hsub, hnat, if_pos hi]

theorem memmove_frame (mem : Memory) {dst src a : Uintptr} {n : ℕ}
    (ha : ∀ i < n, a ≠ dst + BitVec.ofNat 64 i) : memmove mem dst src n a = mem a := by
  rw [memmove, if_neg]
  intro hlt
  refine ha _ hlt ?_
  rw [BitVec.ofNat_toNat, BitVec.setWidth_eq, BitVec.add_comm, BitVec.sub_add_cancel]

/-! ## The bytes of the pieces -/

/-- Every byte lies in a piece. -/
theorem exists_piece (src : BitVec 64) {i : ℕ} (hi : i < maxn) :
    ∃ o, IsPiece src maxn o ∧ ∃ k < pieceLen src maxn o, i = o + k := by
  by_cases hle : (src.toNat + i) % 4096 ≤ i
  · refine ⟨i - (src.toNat + i) % 4096, ⟨by omega, .inr (by omega)⟩, (src.toNat + i) % 4096, ?_, by omega⟩
    rw [pieceLen]
    omega
  · refine ⟨0, ⟨by omega, .inl rfl⟩, i, ?_, (Nat.zero_add i).symm⟩
    rw [pieceLen]
    omega

theorem PiecesPass.mono {mm : Option MmStruct} {k l : ℕ} (h : PiecesPass mm src maxn l) (hkl : k ≤ l) :
    PiecesPass mm src maxn k := fun o ho => h o (ho.trans hkl)

/-- What the user may read is below `USERTOP`. -/
theorem lt_of_piecesPass {m : MmStruct} {k i : ℕ} (hpass : PiecesPass (some m) src maxn k) (hi : i ≤ k)
    (hmax : i < maxn) : (src + BitVec.ofNat 64 i).toNat < 0x80000000 := by
  obtain ⟨o, ho, l, hl, rfl⟩ := exists_piece src hmax
  have hcheck := hpass o (by omega) ho
  rw [userMemCheck] at hcheck
  split at hcheck
  case isTrue => exact absurd hcheck Bool.false_ne_true
  case isFalse haccess =>
    rw [Bool.not_eq_true, Bool.not_eq_false'] at haccess
    obtain ⟨-, -, hend⟩ := (userAccess_range _ _).mp haccess
    have hlen : (BitVec.ofNat 64 (pieceLen src maxn o)).toNat = pieceLen src maxn o := by
      rw [BitVec.toNat_ofNat, pieceLen]
      omega
    rw [← add_ofNat, BitVec.toNat_add, BitVec.toNat_ofNat]
    omega

/-- Kernel buffers are apart from strings of the user. -/
theorem apart_kernel {m : MmStruct} {dst : Uintptr} {k : ℕ} (hpass : PiecesPass (some m) src maxn k)
    (hk : k < maxn) (hlo : 0x80000000 ≤ dst.toNat) (hhi : dst.toNat + maxn ≤ 2 ^ 64) :
    Apart src dst (k + 1) := by
  intro i hi j hj heq
  have hlt := lt_of_piecesPass hpass (Nat.le_of_lt_succ hi) (by omega)
  rw [heq, BitVec.toNat_add, BitVec.toNat_ofNat] at hlt
  omega

/-! ## The loop -/

section Next

variable {mm : Option MmStruct} {mem : Memory} {dst : Uintptr} {r : CopyResult}

theorem add_part (a part : Uintptr) (i : ℕ) :
    a + part + BitVec.ofNat 64 i = a + BitVec.ofNat 64 (part.toNat + i) := by
  have hofNat : part = BitVec.ofNat 64 part.toNat := by
    rw [BitVec.ofNat_toNat, BitVec.setWidth_eq]
  rw [← add_ofNat, ← hofNat]

/-- The first piece. -/
theorem ofNat_pieceLen (hpart : part.toNat = 4096 - src.toNat % 4096) (hlt : part.toNat < maxn) :
    BitVec.ofNat 64 (pieceLen src maxn 0) = part := by
  rw [pieceLen_zero hpart, Nat.min_eq_left hlt.le, BitVec.ofNat_toNat, BitVec.setWidth_eq]

/-- The pieces behind one that passes. -/
theorem piecesPass_next (hpart : part.toNat = 4096 - src.toNat % 4096) (hlt : part.toNat < maxn)
    (hpass : (userMemCheck mm src part false).1 = true) (k : ℕ) :
    PiecesPass mm (src + part) (maxn - part.toNat) k ↔ PiecesPass mm src maxn (part.toNat + k) := by
  have hzero : src + BitVec.ofNat 64 0 = src := BitVec.add_zero src
  constructor
  · intro hall o ho hpiece
    rcases isPiece_cases hpart hpiece with rfl | hle
    · rw [hzero, ofNat_pieceLen hpart hlt]
      exact hpass
    · obtain ⟨o', rfl⟩ := Nat.exists_eq_add_of_le hle
      have hcheck := hall o' (Nat.le_of_add_le_add_left ho) ((isPiece_next hpart hlt).mpr hpiece)
      rw [add_part, pieceLen_next] at hcheck
      exact hcheck
  · intro hall o ho hpiece
    rw [add_part, pieceLen_next]
    exact hall _ (Nat.add_le_add_left ho _) ((isPiece_next hpart hlt).mp hpiece)

theorem Confined.next (hpart : part.toNat = 4096 - src.toNat % 4096) (hlt : part.toNat < maxn)
    (hpass : (userMemCheck mm src part false).1 = true)
    (h : Confined mm (memcpy mem dst src part.toNat) (dst + part) (src + part) (maxn - part.toNat) r)
    {scanned : List Uintptr} (hscanned : scanned ⊆ bytesFrom src part.toNat) :
    Confined mm mem dst src maxn { r with
      checked := (src, part) :: r.checked
      reads := scanned ++ bytesFrom src part.toNat ++ r.reads } := by
  refine ⟨?_, ?_, ?_⟩
  · intro a ha
    refine (h.frame a fun j hj => ?_).trans (memcpy_frame mem fun j hj => ha j (hj.trans hlt))
    rw [add_part]
    exact ha _ (by omega)
  · intro c hc
    rcases List.mem_cons.mp hc with rfl | hc
    · refine ⟨hpass, 0, ⟨by omega, Or.inl rfl⟩, ?_⟩
      rw [ofNat_pieceLen hpart hlt]
      exact Prod.ext (BitVec.add_zero src).symm rfl
    · obtain ⟨hok, o, hpiece, rfl⟩ := h.pieces c hc
      refine ⟨hok, part.toNat + o, (isPiece_next hpart hlt).mp hpiece, ?_⟩
      rw [add_part, pieceLen_next]
  · intro a ha
    rcases List.mem_append.mp ha with ha | ha
    · refine ⟨(src, part), List.mem_cons_self, ?_⟩
      rcases List.mem_append.mp ha with ha | ha
      · exact hscanned ha
      · exact ha
    · obtain ⟨c, hc, hin⟩ := h.reads a ha
      exact ⟨c, List.mem_cons_of_mem _ hc, hin⟩

/-- The string ends in the first piece. -/
theorem Copies.last {mm' : Option MmStruct} {k : ℕ} (hlen : part.toNat ≤ maxn)
    (hchecked : (userMemCheck mm src part false).1 = true ∧ ∃ o, IsPiece src maxn o ∧
      (src, part) = (src + BitVec.ofNat 64 o, BitVec.ofNat 64 (pieceLen src maxn o)))
    (hlt : k < part.toNat) (hz : FirstZero mem src k) (hpass : PiecesPass mm src maxn k) :
    Copies mm mem dst src maxn ⟨true, memcpy mem dst src (k + 1), mm', [(src, part)],
      bytesFrom src (min (k + 1) part.toNat) ++ bytesFrom src (k + 1)⟩ := by
  refine ⟨⟨fun a ha => memcpy_frame mem fun i hi => ha i (by omega), fun c hc => ?_, fun a ha => ?_⟩,
    fun _ => ⟨k, by omega, hz, hpass⟩, fun l _ hl _ hapart => ⟨rfl, fun i hi => ?_⟩⟩
  · rw [List.mem_singleton.mp hc]
    exact hchecked
  · refine ⟨(src, part), List.mem_cons_self, ?_⟩
    rcases List.mem_append.mp ha with ha | ha
    · exact bytesFrom_subset (Nat.min_le_right _ _) ha
    · exact bytesFrom_subset (Nat.succ_le_of_lt hlt) ha
  · rw [hl.unique hz] at hi hapart
    exact memcpy_at mem (Nat.lt_succ_of_le hi) (by omega) hapart

/-- After a whole piece without a zero byte, the rest of the string is the string. -/
theorem Copies.next (hpart : part.toNat = 4096 - src.toNat % 4096) (hlt : part.toNat < maxn)
    (hmax : maxn ≤ 2 ^ 64) (hpass : (userMemCheck mm src part false).1 = true)
    (hnonzero : ∀ i < part.toNat, mem (src + BitVec.ofNat 64 i) ≠ 0)
    (h : Copies mm (memcpy mem dst src part.toNat) (dst + part) (src + part) (maxn - part.toNat) r)
    {scanned : List Uintptr} (hscanned : scanned ⊆ bytesFrom src part.toNat) :
    Copies mm mem dst src maxn { r with
      checked := (src, part) :: r.checked
      reads := scanned ++ bytesFrom src part.toNat ++ r.reads } := by
  refine ⟨h.toConfined.next hpart hlt hpass hscanned, fun hret => ?_, fun k hk hz hpp hapart => ?_⟩
  · -- the zero byte was there before
    obtain ⟨k, hk, hz, hpp⟩ := h.found hret
    have hzero := memcpy_zero hnonzero hz.1
    rw [add_part] at hzero
    obtain ⟨k₀, hle, hz₀⟩ := exists_firstZero hzero
    exact ⟨k₀, by omega, hz₀, ((piecesPass_next hpart hlt hpass k).mp hpp).mono hle⟩
  · have hbehind : part.toNat ≤ k := by
      by_contra hnot
      exact hnonzero k (not_le.mp hnot) hz.1
    obtain ⟨k', rfl⟩ := Nat.exists_eq_add_of_le hbehind
    have hsrc : ∀ i ≤ k', memcpy mem dst src part.toNat (src + part + BitVec.ofNat 64 i) =
        mem (src + BitVec.ofNat 64 (part.toNat + i)) := by
      intro i hi
      rw [add_part]
      exact memcpy_frame mem fun j hj => hapart _ (by omega) j (by omega)
    have hz' : FirstZero (memcpy mem dst src part.toNat) (src + part) k' := by
      refine ⟨(hsrc k' le_rfl).trans hz.1, fun i hi => ?_⟩
      rw [hsrc i hi.le]
      exact hz.2 _ (Nat.add_lt_add_left hi _)
    have hapart' : Apart (src + part) (dst + part) (k' + 1) := by
      intro i hi j hj
      rw [add_part, add_part]
      exact hapart _ (by omega) _ (by omega)
    obtain ⟨hret, hcopied⟩ := h.copied k' (by omega) hz' ((piecesPass_next hpart hlt hpass k').mpr hpp) hapart'
    refine ⟨hret, fun i hi => ?_⟩
    by_cases hip : i < part.toNat
    · have hkeep : r.mem (dst + BitVec.ofNat 64 i) =
          memcpy mem dst src part.toNat (dst + BitVec.ofNat 64 i) := by
        refine h.frame _ fun j hj heq => ?_
        rw [add_part] at heq
        have hij := offset_inj (by omega) (by omega) heq
        omega
      refine hkeep.trans (memcpy_at mem hip (by omega) fun l hl j hj => ?_)
      exact hapart l (by omega) j (by omega)
    · obtain ⟨i', rfl⟩ := Nat.exists_eq_add_of_le (not_lt.mp hip)
      have hbyte := hcopied i' (by omega)
      rw [hsrc i' (by omega), add_part] at hbyte
      exact hbyte

end Next

theorem copyStringLoop_spec {mm₀ : Option MmStruct} (h₀ : Kept mm₀) (mm : Option MmStruct)
    (hk : Kept mm) (hsame : mm.map MmStruct.mmapList = mm₀.map MmStruct.mmapList) (mem : Memory)
    (dst src part maxn : Uintptr) (hpart : part.toNat = 4096 - src.toNat % 4096)
    (hpos : 0 < maxn.toNat) :
    Copies mm₀ mem dst src maxn.toNat (copyStringLoop mm mem dst src part maxn) := by
  -- on the room that is left
  induction hn : maxn.toNat using Nat.strong_induction_on generalizing mm mem dst src part maxn with
  | _ n ih =>
    subst hn
    have hmax := maxn.isLt
    have hzero : src + BitVec.ofNat 64 0 = src := BitVec.add_zero src
    -- the piece, cut where there is no more room
    obtain ⟨piece, hpiece⟩ : ∃ piece, piece = if part > maxn then maxn else part := ⟨_, rfl⟩
    have hlen : piece.toNat = min part.toNat maxn.toNat := by
      rw [hpiece]
      split
      case isTrue hgt => exact (Nat.min_eq_right (BitVec.lt_def.mp hgt).le).symm
      case isFalse hle => exact (Nat.min_eq_left (not_lt.mp fun h => hle (BitVec.lt_def.mpr h))).symm
    have hfirst : BitVec.ofNat 64 (pieceLen src maxn.toNat 0) = piece := by
      rw [pieceLen_zero hpart, ← hlen, BitVec.ofNat_toNat, BitVec.setWidth_eq]
    have hcheck₀ := userMemCheck_congr h₀ hk hsame src piece false
    rw [copyStringLoop]
    dsimp only
    rw [← hpiece]
    split
    case h_1 mm' hcheck =>
      rw [hcheck] at hcheck₀
      refine ⟨⟨fun _ _ => rfl, nofun, nofun⟩, nofun, fun k _ _ hpass _ => ?_⟩
      have hpass₀ := hpass 0 (Nat.zero_le k) ⟨hpos, Or.inl rfl⟩
      rw [hzero, hfirst, ← hcheck₀] at hpass₀
      exact absurd hpass₀ Bool.false_ne_true
    case h_2 mm' hcheck =>
      rw [hcheck] at hcheck₀
      have hscanned : ∀ m, bytesFrom src (min m piece.toNat) ⊆ bytesFrom src piece.toNat := fun m =>
        bytesFrom_subset (Nat.min_le_right _ _)
      have hchecked : (userMemCheck mm₀ src piece false).1 = true ∧ ∃ o, IsPiece src maxn.toNat o ∧
          (src, piece) = (src + BitVec.ofNat 64 o, BitVec.ofNat 64 (pieceLen src maxn.toNat o)) := by
        refine ⟨hcheck₀.symm, 0, ⟨hpos, Or.inl rfl⟩, ?_⟩
        rw [hzero, hfirst]
      rcases strnlen_spec mem src piece.toNat with ⟨hlt, hz⟩ | ⟨heq, hnonzero⟩
      · rw [if_pos hlt]
        refine Copies.last (by omega) hchecked hlt hz fun o ho hpiece' => ?_
        rcases isPiece_cases hpart hpiece' with rfl | hle
        · rw [hzero, hfirst]
          exact hcheck₀.symm
        · omega
      · rw [if_neg (by omega)]
        by_cases hall : piece = maxn
        · rw [if_pos hall]
          refine ⟨⟨fun _ _ => rfl, fun c hc => List.mem_singleton.mp hc ▸ hchecked,
            fun a ha => ⟨(src, piece), List.mem_cons_self, hscanned _ ha⟩⟩, nofun, fun k hk' hz _ _ => ?_⟩
          exact absurd hz.1 (hnonzero k (hall ▸ hk'))
        · rw [if_neg hall]
          have hne : piece.toNat ≠ maxn.toNat := fun h => hall (BitVec.eq_of_toNat_eq h)
          have hpp : piece.toNat = part.toNat := by omega
          rw [← hpp] at hpart
          have hlt : piece.toNat < maxn.toNat := by omega
          have hsub : (maxn - piece).toNat = maxn.toNat - piece.toNat :=
            BitVec.toNat_sub_of_le (BitVec.le_def.mpr hlt.le)
          have hpage : PGSIZE.toNat = 4096 - (src + piece).toNat % 4096 := by
            have hsize : PGSIZE.toNat = 4096 := rfl
            rw [hsize, BitVec.toNat_add]
            omega
          obtain ⟨hk', hsame'⟩ := userMemCheck_keeps hk hcheck
          have hnext := ih (maxn - piece).toNat (by omega) mm' hk' (hsame'.trans hsame)
            (memcpy mem dst src piece.toNat) (dst + piece) (src + piece) PGSIZE (maxn - piece) hpage
            (by omega) rfl
          rw [hsub] at hnext
          exact hnext.next hpart hlt hmax.le hcheck₀.symm hnonzero (hscanned _)

/-- The areas are those from before. -/
theorem copyStringLoop_keeps (mm : Option MmStruct) (mem : Memory) (dst src part maxn : Uintptr)
    (h : Kept mm) :
    Kept (copyStringLoop mm mem dst src part maxn).mm ∧
      (copyStringLoop mm mem dst src part maxn).mm.map MmStruct.mmapList = mm.map MmStruct.mmapList := by
  -- on the room that is left
  induction hn : maxn.toNat using Nat.strong_induction_on generalizing mm mem dst src part maxn with
  | _ n ih =>
    subst hn
    rw [copyStringLoop]
    dsimp only
    obtain ⟨piece, hpiece⟩ : ∃ piece, piece = if part > maxn then maxn else part := ⟨_, rfl⟩
    rw [← hpiece]
    split
    case h_1 mm' hcheck => exact userMemCheck_keeps h hcheck
    case h_2 mm' hcheck =>
      obtain ⟨h', hsame⟩ := userMemCheck_keeps h hcheck
      split
      case isTrue => exact ⟨h', hsame⟩
      case isFalse =>
        split
        case isTrue => exact ⟨h', hsame⟩
        case isFalse =>
          have hpos := pos_of_userMemCheck hcheck
          have hle : piece.toNat ≤ maxn.toNat := by
            rw [hpiece]
            split
            case isTrue => exact Nat.le_refl _
            case isFalse hnot => exact Nat.le_of_not_lt fun hlt => hnot (BitVec.lt_def.mpr hlt)
          have hlt : (maxn - piece).toNat < maxn.toNat := by
            rw [BitVec.toNat_sub_of_le (BitVec.le_def.mpr hle)]
            omega
          obtain ⟨hk, heq⟩ := ih _ hlt mm' (memcpy mem dst src piece.toNat) (dst + piece) (src + piece)
            PGSIZE (maxn - piece) h' rfl
          exact ⟨hk, heq.trans hsame⟩

/-- Nothing is copied from an address that is refused. -/
theorem copyString_checked {mm : Option MmStruct} {mem : Memory} {dst src maxn : Uintptr}
    (h : (copyString mm mem dst src maxn).ret = true) :
    ∃ part, (userMemCheck mm src part false).1 = true := by
  rw [copyString, copyStringLoop] at h
  dsimp only at h
  split at h
  case h_1 => exact absurd h Bool.false_ne_true
  case h_2 mm' hcheck => exact ⟨_, congrArg Prod.fst hcheck⟩

/-- **`copy_string` copies exactly one bounded string**, where the destination does not overlap the string.
A kernel buffer never overlaps a string of the user. -/
theorem copyString_exact (mm : Option Mm) (mem : Memory) (dst src maxn : Uintptr)
    (hpos : 1 ≤ maxn.toNat) :
    Copies (mm.map Mm.toMmStruct) mem dst src maxn.toNat
        (copyString (mm.map Mm.toMmStruct) mem dst src maxn) ∧
      (mm.isSome → 0x80000000 ≤ dst.toNat → dst.toNat + maxn.toNat ≤ 2 ^ 64 →
        ∀ k < maxn.toNat, PiecesPass (mm.map Mm.toMmStruct) src maxn.toNat k → Apart src dst (k + 1)) := by
  have hkept : Kept (mm.map Mm.toMmStruct) := by
    intro m hm
    obtain ⟨m', -, rfl⟩ := Option.mem_map.mp hm
    exact ⟨m'.ordered, m'.cached⟩
  refine ⟨copyStringLoop_spec hkept _ hkept rfl mem dst src _ maxn (part_first src) hpos,
    fun hmm hlo hhi k hk hpass => ?_⟩
  obtain ⟨m, rfl⟩ := Option.isSome_iff_exists.mp hmm
  exact apart_kernel hpass hk hlo hhi

/-- The area `[0x200000, 0x201000)`, which may be read. -/
def readable : Mm := ⟨⟨[⟨0x200000, 0x201000, 1⟩], none, 1⟩, ⟨by decide, by decide⟩, nofun, rfl⟩

/-- A string that goes over the end of a page. -/
def overPageEnd : Memory := fun a => if a = 0x201002 then 0 else 1

/-- Two pages, which may be read. -/
def readablePages : Mm := ⟨⟨[⟨0x200000, 0x202000, 1⟩], none, 1⟩, ⟨by decide, by decide⟩, nofun, rfl⟩

theorem copyString_overPageEnd : ∃ r,
    copyString (some readablePages.toMmStruct) overPageEnd 0xFFFFFFFFC0300000 0x200FFE 16 = r ∧
      r.ret = true ∧ ∀ i ≤ 4, r.mem (0xFFFFFFFFC0300000 + BitVec.ofNat 64 i) =
        overPageEnd (0x200FFE + BitVec.ofNat 64 i) := by
  obtain ⟨hcopies, hkernel⟩ :=
    copyString_exact (some readablePages) overPageEnd 0xFFFFFFFFC0300000 0x200FFE 16 (by decide)
  have hzero : FirstZero overPageEnd 0x200FFE 4 := ⟨by decide, by decide⟩
  have hpass : PiecesPass (some readablePages.toMmStruct) 0x200FFE 16 4 := by
    intro o ho hpiece
    have hrange : 0 < (BitVec.ofNat 64 (pieceLen 0x200FFE 16 o)).toNat ∧
        (0x200FFE + BitVec.ofNat 64 o : Uintptr).toNat = 0x200FFE + o ∧
        (BitVec.ofNat 64 (pieceLen 0x200FFE 16 o)).toNat ≤ 16 := by
      revert o
      decide
    obtain ⟨hpos, hat, hlen⟩ := hrange
    obtain ⟨ok, mm', hrun, hiff, -⟩ := userMemCheck_spec readablePages.toMmStruct readablePages.ordered
      readablePages.cached (0x200FFE + BitVec.ofNat 64 o) (BitVec.ofNat 64 (pieceLen 0x200FFE 16 o)) false
    refine (congrArg Prod.fst hrun).trans (hiff.mpr ⟨hpos, ⟨?_, ?_⟩, fun a hlo hhi => ?_, nofun⟩)
    · rw [hat]
      omega
    · rw [hat]
      omega
    · refine ⟨_, List.mem_singleton_self _, ⟨?_, ?_⟩, rfl⟩
      · show 0x200000 ≤ a
        omega
      · show a < 0x202000
        omega
  exact ⟨_, rfl, hcopies.copied 4 (by decide) hzero hpass
    (hkernel rfl (by decide) (by decide) 4 (by decide) hpass)⟩

/-- The last byte of a page is not 0, the next one is. -/
def lastOfPage : Memory := fun a => if a = 0xFFFFFFFFC0201000 then 0 else 1

/-- A string of the kernel, and a destination that begins one byte behind it: the piece at the end of the page
is copied over the zero byte before this is read. -/
theorem copyString_overlap :
    (∃ k < (2 : Uintptr).toNat, FirstZero lastOfPage 0xFFFFFFFFC0200FFF k ∧
      PiecesPass none 0xFFFFFFFFC0200FFF (2 : Uintptr).toNat k) ∧
    (copyString none lastOfPage 0xFFFFFFFFC0201000 0xFFFFFFFFC0200FFF 2).ret = false := by
  refine ⟨⟨1, by decide, ⟨by decide, by decide⟩, fun o ho hpiece => ?_⟩, ?_⟩
  · revert hpiece
    revert o
    decide
  · have hpart : roundDown (0xFFFFFFFFC0200FFF + PGSIZE) - 0xFFFFFFFFC0200FFF = 1 := by decide
    rw [copyString, hpart, copyStringLoop]
    dsimp only
    rw [if_neg (by decide)]
    split
    case h_1 => rfl
    case h_2 mm hcheck =>
      rw [if_neg (by decide), if_neg (by decide), copyStringLoop]
      dsimp only
      rw [if_pos (by decide)]
      -- the second piece, which is all that is left, has no zero byte now
      split
      case h_1 => rfl
      case h_2 => rw [if_neg (by decide), if_pos rfl]

end Ucore.Vmm
