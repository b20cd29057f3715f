import Ucore.Exec.Model
import Ucore.Vmm.CopyString

/-!
# The arguments of `execve` (`copy_kargv` of `lab8/kern/process/proc.c`)

The arguments are copied into blocks of the kernel, before the old address space is given up.  Each copy
changes its block only, so the later ones find `argv` and the strings as they were (`copyKargv_spec`).
The blocks that `put_kargv` frees when a copy fails are left out.
-/

namespace Ucore.Exec

open Cow (E_NO_MEM E_INVAL)
open Fallible (bind_eq_ok)
open Vmm (Uintptr MmStruct Mm Memory FirstZero Kept KERNBASE copyString copyStringLoop strnlen userMemCheck add_ofNat
  strnlen_spec copyStringLoop_spec copyStringLoop_keeps copyString_checked userAccess_range part_first
  offset_inj userMemCheck_keeps)

/-- The word at an address. -/
def readWord (mem : Memory) (addr : Uintptr) : Uintptr := read64 (fun i => mem (addr + BitVec.ofNat 64 i)) 0

/-- `argv[i]` -/
def argPtr (mem : Memory) (argv : Uintptr) (i : ℕ) : Uintptr :=
  readWord mem (argv + BitVec.ofNat 64 (8 * i))

/-- The loop of `copy_kargv`, with `n` turns from `i` on; `kmalloc` says which block a turn gets. -/
def copyKargvLoop (kmalloc : ℕ → Option Uintptr) (argv : Uintptr) :
    ℕ → ℕ → Option MmStruct → Memory → Except ℤ (List Uintptr × Option MmStruct × Memory)
  | 0, _, mm, mem => .ok ([], mm, mem)
  | n + 1, i, mm, mem =>
    match kmalloc i with
    | none => .error (-E_NO_MEM)
    | some buffer =>
      let r := copyString mm mem buffer (argPtr mem argv i) (BitVec.ofNat 64 (EXEC_MAX_ARG_LEN + 1))
      if r.ret = false then .error (-E_INVAL)
      else do
        let (kargv, mm, mem) ← copyKargvLoop kmalloc argv n (i + 1) r.mm r.mem
        .ok (buffer :: kargv, mm, mem)

/-- `copy_kargv` -/
def copyKargv (mm : Option MmStruct) (mem : Memory) (kmalloc : ℕ → Option Uintptr) (argc : ℕ)
    (argv : Uintptr) : Except ℤ (List Uintptr × Option MmStruct × Memory) :=
  let (ok, mm) := userMemCheck mm argv (BitVec.ofNat 64 (8 * argc)) false
  if ok = false then .error (-E_INVAL) else copyKargvLoop kmalloc argv argc 0 mm mem

/-- The string in a block. -/
def kstring (mem : Memory) (buffer : Uintptr) : List UInt8 :=
  (List.range (strnlen mem buffer (EXEC_MAX_ARG_LEN + 1))).map fun i => mem (buffer + BitVec.ofNat 64 i)

/-- None of `n` bytes is in the block. -/
def Apart (x : Uintptr) (n : ℕ) (buffer : Uintptr) : Prop :=
  ∀ k < n, ∀ l < EXEC_MAX_ARG_LEN + 1, x + BitVec.ofNat 64 k ≠ buffer + BitVec.ofNat 64 l

/-- The blocks are memory that nobody uses: apart from each other, from user memory, and, where the
arguments are in the kernel, from the arguments. -/
structure Fresh (mm : Option MmStruct) (mem : Memory) (kmalloc : ℕ → Option Uintptr) (argc : ℕ)
    (argv : Uintptr) : Prop where
  blocks : ∀ i < argc, ∀ j < argc, i ≠ j → ∀ b ∈ kmalloc i, ∀ c ∈ kmalloc j,
    Apart b (EXEC_MAX_ARG_LEN + 1) c
  kernel : mm ≠ none → ∀ i < argc, ∀ b ∈ kmalloc i,
    KERNBASE.toNat ≤ b.toNat ∧ b.toNat + (EXEC_MAX_ARG_LEN + 1) ≤ 2 ^ 64
  apart : mm = none → ∀ i < argc, ∀ b ∈ kmalloc i, Apart argv (8 * argc) b ∧
    ∀ j < argc, Apart (argPtr mem argv j) (EXEC_MAX_ARG_LEN + 1) b

/-- The string at an address. -/
structure UserString (mem : Memory) (addr : Uintptr) (arg : List UInt8) : Prop where
  bytes : ∀ i (hi : i < arg.length), mem (addr + BitVec.ofNat 64 i) = arg[i] ∧ arg[i] ≠ 0
  last : mem (addr + BitVec.ofNat 64 arg.length) = 0
  short : arg.length ≤ EXEC_MAX_ARG_LEN

variable {mm mm' mm₀ : Option MmStruct} {mem mem' mem₀ : Memory} {kmalloc : ℕ → Option Uintptr}
  {argc n i : ℕ} {argv addr b : Uintptr} {kargv : List Uintptr}

/-- User memory is below the blocks. -/
theorem apart_of_user {n : ℕ} (hlow : addr.toNat + n ≤ 2 ^ 32) (hb : KERNBASE.toNat ≤ b.toNat)
    (hend : b.toNat + (EXEC_MAX_ARG_LEN + 1) ≤ 2 ^ 64) : Apart addr n b := by
  intro k hk l hl heq
  have hnat := congrArg BitVec.toNat heq
  change 0xFFFFFFFFC0200000 ≤ _ at hb
  change _ + 4096 ≤ _ at hend
  change l < 4096 at hl
  rw [BitVec.toNat_add, BitVec.toNat_add, BitVec.toNat_ofNat, BitVec.toNat_ofNat] at hnat
  omega

theorem user_of_check {m : MmStruct} {len : Uintptr} (h : (userMemCheck (some m) addr len false).1 = true) :
    addr.toNat + len.toNat ≤ 0x80000000 := by
  rw [userMemCheck] at h
  split at h
  case isTrue => exact absurd h Bool.false_ne_true
  case isFalse haccess =>
    rw [Bool.not_eq_true, Bool.not_eq_false'] at haccess
    exact ((userAccess_range addr len).mp haccess).2.2

theorem argPtr_congr (h : ∀ k < 8, mem' (argv + BitVec.ofNat 64 (8 * i + k)) =
    mem (argv + BitVec.ofNat 64 (8 * i + k))) : argPtr mem' argv i = argPtr mem argv i := by
  refine read64_congr fun k _ hk => ?_
  rw [add_ofNat]
  exact h k (by omega)

/-- The string in the block is the one at the address, if it was copied there. -/
theorem userString_kstring {k : ℕ} (hz : FirstZero mem addr k) (hk : k ≤ EXEC_MAX_ARG_LEN)
    (hcopy : ∀ l ≤ k, mem' (b + BitVec.ofNat 64 l) = mem (addr + BitVec.ofNat 64 l)) :
    UserString mem addr (kstring mem' b) := by
  have hz' : FirstZero mem' b k := by
    refine ⟨(hcopy k le_rfl).trans hz.1, fun l hl => ?_⟩
    rw [hcopy l hl.le]
    exact hz.2 l hl
  have hlen : strnlen mem' b (EXEC_MAX_ARG_LEN + 1) = k := by
    rcases strnlen_spec mem' b (EXEC_MAX_ARG_LEN + 1) with ⟨-, hfound⟩ | ⟨-, hall⟩
    · exact hfound.unique hz'
    · exact absurd hz'.1 (hall k (Nat.lt_succ_of_le hk))
  have hlength : (kstring mem' b).length = k := by
    rw [kstring, List.length_map, List.length_range, hlen]
  refine ⟨fun l hl => ?_, ?_, ?_⟩
  · rw [hlength] at hl
    have hget : ∀ h : l < (kstring mem' b).length, (kstring mem' b)[l] = mem (addr + BitVec.ofNat 64 l) := by
      intro h
      simp only [kstring, List.getElem_map, List.getElem_range]
      exact hcopy l hl.le
    rw [hget]
    exact ⟨rfl, hz.2 l hl⟩
  · rw [hlength]
    exact hz.1
  · rw [hlength]
    exact hk

/-- A string for which `copy_string` returns 1. -/
theorem Fresh.string {j : ℕ} {dst maxn : Uintptr} (h : Fresh mm₀ mem₀ kmalloc argc argv)
    (hlist : mm.map MmStruct.mmapList = mm₀.map MmStruct.mmapList) (hi : i < argc)
    (hret : (copyString mm mem dst (argPtr mem₀ argv i) maxn).ret = true) (hj : j < argc)
    (hb : b ∈ kmalloc j) : Apart (argPtr mem₀ argv i) (EXEC_MAX_ARG_LEN + 1) b := by
  obtain ⟨part, hcheck⟩ := copyString_checked hret
  cases mm with
  | none =>
    cases mm₀ with
    | none => exact (h.apart rfl j hj b hb).2 i hi
    | some m => exact nomatch hlist
  | some m =>
    have hsome : mm₀ ≠ none := by
      rintro rfl
      exact nomatch hlist
    obtain ⟨hbase, hend⟩ := h.kernel hsome j hj b hb
    have huser := user_of_check hcheck
    exact apart_of_user (by show _ + 4096 ≤ _; omega) hbase hend

/-- `argv` itself. -/
theorem Fresh.array (h : Fresh mm₀ mem₀ kmalloc argc argv) (hargc : argc ≤ EXEC_MAX_ARG_NUM)
    (hcheck : (userMemCheck mm₀ argv (BitVec.ofNat 64 (8 * argc)) false).1 = true) (hi : i < argc)
    (hb : b ∈ kmalloc i) : Apart argv (8 * argc) b := by
  change argc ≤ 32 at hargc
  cases mm₀ with
  | none => exact (h.apart rfl i hi b hb).1
  | some m =>
    obtain ⟨hbase, hend⟩ := h.kernel (Option.some_ne_none m) i hi b hb
    have huser := user_of_check hcheck
    exact apart_of_user (by omega) hbase hend

/-- **The loop of `copy_kargv`**, from `i` on. -/
theorem copyKargvLoop_spec (hfresh : Fresh mm₀ mem₀ kmalloc argc argv)
    (harray : ∀ i < argc, ∀ b ∈ kmalloc i, Apart argv (8 * argc) b) (n i : ℕ) (hn : i + n = argc)
    (hk : Kept mm) (hlist : mm.map MmStruct.mmapList = mm₀.map MmStruct.mmapList)
    (hmem : ∀ x, (∀ j < i, ∀ b ∈ kmalloc j, ∀ l < EXEC_MAX_ARG_LEN + 1, x ≠ b + BitVec.ofNat 64 l) →
      mem x = mem₀ x)
    (hrun : copyKargvLoop kmalloc argv n i mm mem = .ok (kargv, mm', mem')) :
    kargv.length = n ∧
      (∀ x, (∀ j, i ≤ j → j < argc → ∀ b ∈ kmalloc j, ∀ l < EXEC_MAX_ARG_LEN + 1,
        x ≠ b + BitVec.ofNat 64 l) → mem' x = mem x) ∧
      ∀ t (ht : t < kargv.length), UserString mem₀ (argPtr mem₀ argv (i + t)) (kstring mem' kargv[t]) := by
  induction n generalizing i mm mem kargv mm' mem' with
  | zero =>
    cases hrun
    exact ⟨rfl, fun x _ => rfl, fun t ht => absurd ht (Nat.not_lt_zero t)⟩
  | succ n ih =>
    rw [copyKargvLoop] at hrun
    cases hb : kmalloc i with
    | none =>
      rw [hb] at hrun
      exact nomatch hrun
    | some b =>
      simp only [hb] at hrun
      have hptr : argPtr mem argv i = argPtr mem₀ argv i := argPtr_congr fun k hk =>
        hmem _ fun j hj c hc l hl => harray j (by omega) c hc _ (by omega) l hl
      rw [hptr] at hrun
      obtain ⟨r, hr⟩ : ∃ r, r =
          copyString mm mem b (argPtr mem₀ argv i) (BitVec.ofNat 64 (EXEC_MAX_ARG_LEN + 1)) := ⟨_, rfl⟩
      rw [← hr] at hrun
      by_cases hret : r.ret = false
      · rw [if_pos hret] at hrun
        exact nomatch hrun
      rw [if_neg hret] at hrun
      rw [Bool.not_eq_false] at hret
      obtain ⟨⟨rest, mm₂, mem₂⟩, hrest, heq⟩ := bind_eq_ok.mp hrun
      obtain ⟨rfl, rfl, rfl⟩ : kargv = b :: rest ∧ mm' = mm₂ ∧ mem' = mem₂ := by
        cases heq
        exact ⟨rfl, rfl, rfl⟩
      have hapart : ∀ j < argc, ∀ c ∈ kmalloc j, Apart (argPtr mem₀ argv i) (EXEC_MAX_ARG_LEN + 1) c :=
        fun j hj c hc => hfresh.string hlist (by omega) (hr ▸ hret) hj hc
      have hcopies := copyStringLoop_spec hk mm hk rfl mem b (argPtr mem₀ argv i) _
        (BitVec.ofNat 64 (EXEC_MAX_ARG_LEN + 1)) (part_first _) (by decide)
      obtain ⟨hk', hlist'⟩ := copyStringLoop_keeps mm mem b (argPtr mem₀ argv i) _
        (BitVec.ofNat 64 (EXEC_MAX_ARG_LEN + 1)) hk
      rw [show copyStringLoop _ _ _ _ _ _ = r from hr.symm] at hcopies hk' hlist'
      have hmax : (BitVec.ofNat 64 (EXEC_MAX_ARG_LEN + 1)).toNat = EXEC_MAX_ARG_LEN + 1 := rfl
      rw [hmax] at hcopies
      have hsame : ∀ l < EXEC_MAX_ARG_LEN + 1, mem (argPtr mem₀ argv i + BitVec.ofNat 64 l) =
          mem₀ (argPtr mem₀ argv i + BitVec.ofNat 64 l) := fun l hl =>
        hmem _ fun j hj c hc l' hl' => hapart j (by omega) c hc l hl l' hl'
      obtain ⟨k, hklt, hz, hpass⟩ := hcopies.found hret
      have hbytes := (hcopies.copied k hklt hz hpass fun l hl l' hl' =>
        hapart i (by omega) b hb l (by omega) l' (by omega)).2
      have hz₀ : FirstZero mem₀ (argPtr mem₀ argv i) k :=
        ⟨(hsame k hklt).symm.trans hz.1, fun l hl => hsame l (hl.trans hklt) ▸ hz.2 l hl⟩
      obtain ⟨hlen, hframe, hstrings⟩ := ih (i + 1) (by omega) hk' (hlist'.trans hlist)
        (fun x hx => (hcopies.frame x fun l hl => hx i (Nat.lt_succ_self i) b hb l hl).trans
          (hmem x fun j hj => hx j (hj.trans (Nat.lt_succ_self i)))) hrest
      refine ⟨congrArg (· + 1) hlen, fun x hx => ?_, fun t ht => ?_⟩
      · rw [hframe x fun j hj => hx j (by omega)]
        exact hcopies.frame x (hx i le_rfl (by omega) b hb)
      cases t with
      | zero =>
        refine userString_kstring hz₀ (Nat.le_of_lt_succ hklt) fun l hl => ?_
        rw [List.getElem_cons_zero, hframe _ fun j hj hj' c hc =>
          hfresh.blocks i (by omega) j hj' (by omega) b hb c hc l (by omega), hbytes l hl]
        exact hsame l (by omega)
      | succ t =>
        have hnext := hstrings t (Nat.lt_of_succ_lt_succ ht)
        rw [show i + 1 + t = i + (t + 1) by omega] at hnext
        exact hnext

/-- **`copy_kargv`** that succeeds: the blocks hold the strings. -/
theorem copyKargv_spec (mm : Option Mm) (hargc : argc ≤ EXEC_MAX_ARG_NUM)
    (hfresh : Fresh (mm.map Mm.toMmStruct) mem kmalloc argc argv)
    (hrun : copyKargv (mm.map Mm.toMmStruct) mem kmalloc argc argv = .ok (kargv, mm', mem')) :
    kargv.length = argc ∧
      ∀ i (hi : i < kargv.length), UserString mem (argPtr mem argv i) (kstring mem' kargv[i]) := by
  have hkept : Kept (mm.map Mm.toMmStruct) := by
    intro m hm
    obtain ⟨m', -, rfl⟩ := Option.mem_map.mp hm
    exact ⟨m'.ordered, m'.cached⟩
  rw [copyKargv] at hrun
  cases hcheck : userMemCheck (mm.map Mm.toMmStruct) argv (BitVec.ofNat 64 (8 * argc)) false with
  | mk ok mm₁ =>
  rw [hcheck] at hrun
  dsimp only at hrun
  by_cases hok : ok = false
  · rw [if_pos hok] at hrun
    exact nomatch hrun
  rw [if_neg hok] at hrun
  rw [Bool.not_eq_false] at hok
  obtain ⟨hkept', hlist⟩ := userMemCheck_keeps hkept hcheck
  have harray : ∀ i < argc, ∀ b ∈ kmalloc i, Apart argv (8 * argc) b := fun i hi b hb =>
    hfresh.array hargc (by rw [hcheck]; exact hok) hi hb
  obtain ⟨hlen, -, hstrings⟩ := copyKargvLoop_spec hfresh harray argc 0 (Nat.zero_add argc) hkept' hlist
    (fun x _ => rfl) hrun
  simp only [Nat.zero_add] at hstrings
  exact ⟨hlen, hstrings⟩

end Ucore.Exec
