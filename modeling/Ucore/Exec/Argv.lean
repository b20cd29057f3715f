import Ucore.Exec.Pages

/-!
# The arguments on the new stack

The strings are pushed below `USTACKTOP`, the last one first, and below them the pointers.  `argAddr`
says where a string is, and `push_spec` what one push does; a push fails where a page between the old
and the new `sp` is not mapped.
-/

namespace Ucore.Exec

open Cow (State E_NO_MEM userByte mapping)
open Vmm (Uintptr)

/-- The program reads these bytes from `x` on. -/
def Holds (s : State) (a x : ℕ) (bytes : List UInt8) : Prop :=
  ∀ i (hi : i < bytes.length), userByte s a (x + i) = some bytes[i]

/-- The bytes of `a` in `[lo, hi)` may change; their pages are mapped. -/
structure Pushed (s s' : State) (a lo hi : ℕ) : Prop where
  pte : ∀ b q, s'.pte b q = s.pte b q
  outside : ∀ y, ¬ (lo ≤ y ∧ y < hi) → userByte s' a y = userByte s a y
  mapped : ∀ y, lo ≤ y → y < hi → mapping s (a, y / 4096) ≠ none

variable {pool : Set ℕ} {a lo mid hi : ℕ} {s s' s'' : State} {bytes : List UInt8} {sp : Uintptr}

theorem Pushed.mapping_eq (h : Pushed s s' a lo hi) : mapping s' = mapping s := by
  funext y
  rw [mapping, mapping, h.pte]

theorem Pushed.refl (s : State) (a x : ℕ) : Pushed s s a x x :=
  ⟨fun _ _ => rfl, fun _ _ => rfl, fun _ hlo hhi => absurd hhi (not_lt.mpr hlo)⟩

theorem Pushed.trans (h : Pushed s s' a mid hi) (h' : Pushed s' s'' a lo mid) (hlo : lo ≤ mid)
    (hhi : mid ≤ hi) : Pushed s s'' a lo hi := by
  refine ⟨fun b q => (h'.pte b q).trans (h.pte b q), fun y hy => ?_, fun y hy hy' => ?_⟩
  · rw [h'.outside y (by omega), h.outside y (by omega)]
  · by_cases hmid : y < mid
    · rw [← h.mapping_eq]
      exact h'.mapped y hy hmid
    · exact h.mapped y (not_lt.mp hmid) hy'

theorem Holds.pushed {x : ℕ} (h : Holds s a x bytes) (hp : Pushed s s' a lo hi)
    (hx : hi ≤ x ∨ x + bytes.length ≤ lo) : Holds s' a x bytes := by
  intro i hi
  rw [hp.outside _ (by omega), h i hi]

theorem mapping_ne_none_of_userByte {x : ℕ} {b : UInt8} (h : userByte s a x = some b) :
    mapping s (a, x / 4096) ≠ none := by
  intro hnone
  have hview : Cow.view s (a, x / 4096) = none := congrArg (Option.map s.data) hnone
  rw [userByte, hview] at h
  cases h

theorem toNat_alignWord (w : Uintptr) : (alignWord w).toNat = w.toNat / 8 * 8 := by
  have hmod : (w % 8).toNat = w.toNat % 8 := BitVec.toNat_umod
  have hle : w % 8 ≤ w := by
    rw [BitVec.le_def, hmod]
    exact Nat.mod_le ..
  rw [alignWord, BitVec.toNat_sub_of_le hle, hmod]
  omega

/-- **One push**: bytes are stored below `sp`. -/
theorem push_spec (h : Own pool a s) (sp sp' : Uintptr) (hne : bytes ≠ []) (haligned : sp.toNat % 8 = 0)
    (hroom : bytes.length ≤ sp.toNat) (hsp : sp.toNat ≤ 0x80000000)
    (hsp' : sp'.toNat = (sp.toNat - bytes.length) / 8 * 8) :
    (loadIcodeCopyToUser a sp' bytes s = .error (-E_NO_MEM) ∧
      ∃ y, sp'.toNat ≤ y ∧ y < sp.toNat ∧ mapping s (a, y / 4096) = none) ∨
    ∃ s', loadIcodeCopyToUser a sp' bytes s = .ok s' ∧ Own pool a s' ∧ Holds s' a sp'.toNat bytes ∧
      Pushed s s' a sp'.toNat sp.toNat := by
  have hpos := List.length_pos_iff.mpr hne
  rcases loadIcodeCopyToUser_spec h sp' bytes (by omega) with
    ⟨herr, i, hi, hnone⟩ | ⟨s', hok, hown, hst⟩
  · exact Or.inl ⟨herr, sp'.toNat + i, by omega, by omega, hnone⟩
  · refine Or.inr ⟨s', hok, hown, hst.inside, hst.pte, fun y hy => hst.outside y (by omega),
      fun y hlo hhi => ?_⟩
    rw [← hst.mapping]
    -- The bytes up to the old `sp` are in the page of the last byte
    by_cases hin : y < sp'.toNat + bytes.length
    · have hbyte := hst.inside (y - sp'.toNat) (by omega)
      rw [Nat.add_sub_cancel' hlo] at hbyte
      exact mapping_ne_none_of_userByte hbyte
    · have hbyte := mapping_ne_none_of_userByte (hst.inside (bytes.length - 1) (by omega))
      rwa [show (sp'.toNat + (bytes.length - 1)) / 4096 = y / 4096 by omega] at hbyte

/-! ### The strings -/

/-- Where the first of the arguments is. -/
def argAddr : List (List UInt8) → ℕ
  | [] => 0x80000000
  | arg :: args => (argAddr args - (arg.length + 1)) / 8 * 8

/-- The arguments are where they belong. -/
def Placed (s : State) (a : ℕ) : List (List UInt8) → Prop
  | [] => True
  | arg :: args => Holds s a (argAddr (arg :: args)) (arg ++ [0]) ∧ Placed s a args

/-- The addresses of the arguments. -/
def argAddrs : List (List UInt8) → List Uintptr
  | [] => []
  | arg :: args => BitVec.ofNat 64 (argAddr (arg :: args)) :: argAddrs args

variable {arg : List UInt8} {args rest : List (List UInt8)}

theorem argAddr_mod (args : List (List UInt8)) : argAddr args % 8 = 0 := by
  cases args with
  | nil => rfl
  | cons arg args => exact Nat.mul_mod_left _ 8

/-- A string takes a page at most. -/
theorem le_argAddr (h : ∀ arg ∈ args, arg.length ≤ EXEC_MAX_ARG_LEN) :
    0x80000000 ≤ argAddr args + 4096 * args.length := by
  induction args with
  | nil => exact le_rfl
  | cons arg args ih =>
    have hlen : arg.length ≤ 4095 := h arg List.mem_cons_self
    have hrest := ih fun x hx => h x (List.mem_cons_of_mem _ hx)
    have hmod := argAddr_mod args
    rw [argAddr, List.length_cons]
    omega

theorem argAddr_le (args : List (List UInt8)) : argAddr args ≤ 0x80000000 := by
  induction args with
  | nil => exact le_rfl
  | cons arg args ih =>
    rw [argAddr]
    omega

theorem argAddr_cons (arg : List UInt8) (args : List (List UInt8)) :
    argAddr (arg :: args) = (argAddr args - (arg.length + 1)) / 8 * 8 := rfl

theorem argAddr_append_le (args rest : List (List UInt8)) : argAddr (args ++ rest) ≤ argAddr rest := by
  induction args with
  | nil => exact le_rfl
  | cons arg args ih =>
    rw [List.cons_append, argAddr_cons]
    omega

theorem Placed.pushed {x : ℕ} (h : Placed s a args) (hp : Pushed s s' a lo x) (hx : x ≤ argAddr args) :
    Placed s' a args := by
  induction args with
  | nil => trivial
  | cons arg args ih =>
    have hle : argAddr (arg :: args) ≤ argAddr args := by
      rw [argAddr_cons]
      omega
    exact ⟨h.1.pushed hp (Or.inl hx), ih h.2 (hx.trans hle)⟩

/-- The loop over the arguments; `rest` are those that are pushed. -/
theorem pushStrings_spec (args rest : List (List UInt8)) (h : Own pool a s) (hsp : sp.toNat = argAddr rest)
    (hplaced : Placed s a rest) (hlen : ∀ arg ∈ args.reverse ++ rest, arg.length ≤ EXEC_MAX_ARG_LEN)
    (hnum : args.length + rest.length ≤ EXEC_MAX_ARG_NUM) :
    (pushStrings a args sp (argAddrs rest) s = .error (-E_NO_MEM) ∧ ∃ y,
      argAddr (args.reverse ++ rest) ≤ y ∧ y < sp.toNat ∧ mapping s (a, y / 4096) = none) ∨
    ∃ sp' s', pushStrings a args sp (argAddrs rest) s = .ok (sp', argAddrs (args.reverse ++ rest), s') ∧
      sp'.toNat = argAddr (args.reverse ++ rest) ∧ Own pool a s' ∧ Placed s' a (args.reverse ++ rest) ∧
      Pushed s s' a sp'.toNat sp.toNat ∧ sp'.toNat ≤ sp.toNat := by
  induction args generalizing rest sp s with
  | nil => exact Or.inr ⟨sp, s, rfl, hsp, h, hplaced, .refl s a _, le_rfl⟩
  | cons arg args ih =>
    have hrev : (arg :: args).reverse ++ rest = args.reverse ++ arg :: rest := by
      rw [List.reverse_cons, List.append_assoc, List.singleton_append]
    rw [hrev] at hlen ⊢
    rw [List.length_cons] at hnum
    change args.length + 1 + rest.length ≤ 32 at hnum
    have hlow := le_argAddr fun x hx => hlen x (List.mem_append_right _ hx)
    have hhigh := argAddr_le rest
    have hmod := argAddr_mod rest
    have hmore := argAddr_append_le args.reverse (arg :: rest)
    have harg : arg.length ≤ 4095 := hlen arg (List.mem_append_right _ List.mem_cons_self)
    rw [List.length_cons] at hlow
    have hcons := argAddr_cons arg rest
    have hstrlen : (arg ++ [0]).length = arg.length + 1 := by rw [List.length_append]; rfl
    have hsub : (sp - BitVec.ofNat 64 (arg.length + 1)).toNat = sp.toNat - (arg.length + 1) := by
      have hle : BitVec.ofNat 64 (arg.length + 1) ≤ sp := by
        rw [BitVec.le_def, BitVec.toNat_ofNat]
        omega
      rw [BitVec.toNat_sub_of_le hle, BitVec.toNat_ofNat]
      omega
    rw [pushStrings]
    obtain ⟨sp₁, hsp₁⟩ : ∃ w, w = alignWord (sp - BitVec.ofNat 64 (arg.length + 1)) := ⟨_, rfl⟩
    have haddr : sp₁.toNat = argAddr (arg :: rest) := by
      rw [hsp₁, toNat_alignWord, hsub, hsp, hcons]
    have hbottom : ¬ sp₁ < USTACKTOP - USTACKSIZE := by
      rw [BitVec.lt_def, haddr]
      show ¬ _ < 0x7FF00000
      omega
    have hword : BitVec.ofNat 64 (argAddr (arg :: rest)) = sp₁ := by
      rw [← haddr, BitVec.ofNat_toNat, BitVec.setWidth_eq]
    simp only [← hsp₁]
    rw [if_neg hbottom]
    rcases push_spec h sp sp₁ (List.append_ne_nil_of_right_ne_nil arg (List.cons_ne_nil 0 []))
      (by omega) (by omega) (by omega) (by rw [haddr, hcons, hstrlen, hsp]) with
      ⟨herr, y, hlo, hhi, hnone⟩ | ⟨s₁, hok, hown, hholds, hpushed⟩
    · rw [herr]
      exact Or.inl ⟨rfl, y, by omega, hhi, hnone⟩
    rw [hok]
    have hplaced₁ : Placed s₁ a (arg :: rest) :=
      ⟨haddr ▸ hholds, hplaced.pushed hpushed hsp.le⟩
    have huargv : sp₁ :: argAddrs rest = argAddrs (arg :: rest) := by rw [argAddrs, hword]
    show (pushStrings a args sp₁ (sp₁ :: argAddrs rest) s₁ = _ ∧ _) ∨ ∃ sp' s',
      pushStrings a args sp₁ (sp₁ :: argAddrs rest) s₁ = _ ∧ _
    rw [huargv]
    rcases ih (arg :: rest) hown haddr hplaced₁ hlen (by rw [List.length_cons]; show _ ≤ 32; omega) with
      ⟨herr, y, hlo, hhi, hnone⟩ | ⟨sp₂, s₂, hrun, haddr₂, hown₂, hplaced₂, hpushed₂, hle₂⟩
    · rw [hpushed.mapping_eq] at hnone
      exact Or.inl ⟨herr, y, hlo, by omega, hnone⟩
    · exact Or.inr ⟨sp₂, s₂, hrun, haddr₂, hown₂, hplaced₂, hpushed.trans hpushed₂ hle₂ (by omega), by omega⟩

/-! ### The pointers -/

theorem length_wordBytes (w : Uintptr) : (wordBytes w).length = 8 := by
  rw [wordBytes, List.length_map, List.length_range]

theorem pushWords_spec (ws : List Uintptr) (h : Own pool a s) (haligned : sp.toNat % 8 = 0)
    (hroom : 8 * ws.length ≤ sp.toNat) (hsp : sp.toNat ≤ 0x80000000) :
    (pushWords a ws sp s = .error (-E_NO_MEM) ∧ ∃ y,
      sp.toNat - 8 * ws.length ≤ y ∧ y < sp.toNat ∧ mapping s (a, y / 4096) = none) ∨
    ∃ sp' s', pushWords a ws sp s = .ok (sp', s') ∧ sp'.toNat = sp.toNat - 8 * ws.length ∧
      Own pool a s' ∧ (∀ i (hi : i < ws.length), Holds s' a (sp.toNat - 8 * (i + 1)) (wordBytes ws[i])) ∧
      Pushed s s' a sp'.toNat sp.toNat := by
  induction ws generalizing sp s with
  | nil => exact Or.inr ⟨sp, s, rfl, rfl, h, fun i hi => absurd hi (Nat.not_lt_zero i), .refl s a _⟩
  | cons w ws ih =>
    rw [List.length_cons] at hroom
    have hlen := length_wordBytes w
    have hnext : (sp - 8).toNat = sp.toNat - 8 := by
      rw [BitVec.toNat_sub_of_le (by rw [BitVec.le_def]; show 8 ≤ _; omega)]
      rfl
    have haligned' : (sp - 8).toNat % 8 = 0 := by omega
    have hne : wordBytes w ≠ [] := List.ne_nil_of_length_pos (by omega)
    rw [pushWords]
    rcases push_spec h sp (sp - 8) hne haligned (by omega) hsp
      (by rw [hnext, hlen]; omega) with ⟨herr, y, hlo, hhi, hnone⟩ | ⟨s₁, hok, hown, hholds, hpushed⟩
    · rw [herr]
      exact Or.inl ⟨rfl, y, by rw [List.length_cons]; omega, hhi, hnone⟩
    rw [hok]
    show (pushWords a ws (sp - 8) s₁ = _ ∧ _) ∨ ∃ sp' s', pushWords a ws (sp - 8) s₁ = _ ∧ _
    rcases ih hown haligned' (by omega) (by omega) with
      ⟨herr, y, hlo, hhi, hnone⟩ | ⟨sp₂, s₂, hrun, haddr₂, hown₂, hholds₂, hpushed₂⟩
    · rw [hpushed.mapping_eq] at hnone
      exact Or.inl ⟨herr, y, by rw [List.length_cons]; omega, by omega, hnone⟩
    refine Or.inr ⟨sp₂, s₂, hrun, by rw [List.length_cons]; omega, hown₂, fun i hi => ?_,
      hpushed.trans hpushed₂ (by omega) (by omega)⟩
    cases i with
    | zero =>
      rw [hnext] at hholds
      exact hholds.pushed hpushed₂ (Or.inl hnext.le)
    | succ i =>
      have hword := hholds₂ i (Nat.lt_of_succ_lt_succ hi)
      rw [hnext, Nat.sub_sub, show 8 + 8 * (i + 1) = 8 * (i + 1 + 1) by omega] at hword
      exact hword

/-! ### `argv` -/

/-- Where `argv` is. -/
def argvAddr (args : List (List UInt8)) : ℕ := argAddr args - 8 * (args.length + 1)

/-- The strings are in memory, and from `argv` on the words with their addresses and 0. -/
structure Laid (s : State) (a : ℕ) (args : List (List UInt8)) : Prop where
  strings : ∀ i (hi : i < args.length), Holds s a (argAddr (args.drop i)) (args[i] ++ [0])
  pointers : ∀ i < args.length,
    Holds s a (argvAddr args + 8 * i) (wordBytes (BitVec.ofNat 64 (argAddr (args.drop i))))
  last : Holds s a (argvAddr args + 8 * args.length) (wordBytes 0)

theorem Placed.strings (h : Placed s a args) (i : ℕ) (hi : i < args.length) :
    Holds s a (argAddr (args.drop i)) (args[i] ++ [0]) := by
  induction args generalizing i with
  | nil => exact absurd hi (Nat.not_lt_zero i)
  | cons arg args ih =>
    cases i with
    | zero => exact h.1
    | succ i => exact ih h.2 i (Nat.lt_of_succ_lt_succ hi)

theorem length_argAddrs (args : List (List UInt8)) : (argAddrs args).length = args.length := by
  induction args with
  | nil => rfl
  | cons arg args ih => rw [argAddrs, List.length_cons, List.length_cons, ih]

theorem getElem_argAddrs (i : ℕ) (hi : i < (argAddrs args).length) :
    (argAddrs args)[i] = BitVec.ofNat 64 (argAddr (args.drop i)) := by
  induction args generalizing i with
  | nil => exact absurd hi (Nat.not_lt_zero i)
  | cons arg args ih =>
    cases i with
    | zero => rfl
    | succ i => exact ih i (Nat.lt_of_succ_lt_succ hi)

/-- **The arguments**: they are laid out, or a page for them is not mapped. -/
theorem pushArgv_spec (h : Own pool a s) (hlen : ∀ arg ∈ args, arg.length ≤ EXEC_MAX_ARG_LEN)
    (hnum : args.length ≤ EXEC_MAX_ARG_NUM) :
    (pushArgv a args s = .error (-E_NO_MEM) ∧ ∃ y,
      argvAddr args ≤ y ∧ y < 0x80000000 ∧ mapping s (a, y / 4096) = none) ∨
    ∃ sp s', pushArgv a args s = .ok (sp, s') ∧ sp.toNat = argvAddr args ∧ Own pool a s' ∧
      Laid s' a args ∧ Pushed s s' a (argvAddr args) 0x80000000 := by
  have hlow := le_argAddr hlen
  have hmod := argAddr_mod args
  have hhigh := argAddr_le args
  change args.length ≤ 32 at hnum
  have htop : USTACKTOP.toNat = 0x80000000 := rfl
  have hspec := pushStrings_spec args.reverse [] h htop trivial
    (by rw [List.reverse_reverse, List.append_nil]; exact hlen)
    (by rw [List.length_reverse]; exact hnum)
  rw [List.reverse_reverse, List.append_nil, htop] at hspec
  rw [pushArgv]
  rcases hspec with ⟨herr, y, hlo, hhi, hnone⟩ | ⟨sp₁, s₁, hrun, haddr, hown, hplaced, hpushed, -⟩
  · rw [show ([] : List Uintptr) = argAddrs [] from rfl, herr]
    exact Or.inl ⟨rfl, y, by rw [argvAddr]; omega, hhi, hnone⟩
  rw [show ([] : List Uintptr) = argAddrs [] from rfl, hrun]
  show (pushWords a _ sp₁ s₁ = _ ∧ _) ∨ ∃ sp s', pushWords a _ sp₁ s₁ = _ ∧ _
  have hcount : (0 :: (argAddrs args).reverse).length = args.length + 1 := by
    rw [List.length_cons, List.length_reverse, length_argAddrs]
  have hargv : argvAddr args = sp₁.toNat - 8 * (args.length + 1) := by rw [haddr, argvAddr]
  have haligned : sp₁.toNat % 8 = 0 := by omega
  rcases pushWords_spec (0 :: (argAddrs args).reverse) hown haligned (by omega) (by omega) with
    ⟨herr, y, hlo, hhi, hnone⟩ | ⟨sp₂, s₂, hrun₂, haddr₂, hown₂, hwords, hpushed₂⟩
  · rw [hpushed.mapping_eq] at hnone
    exact Or.inl ⟨herr, y, by omega, by omega, hnone⟩
  rw [hcount] at haddr₂
  have hsp₂ : sp₂.toNat = argvAddr args := haddr₂.trans hargv.symm
  refine Or.inr ⟨sp₂, s₂, hrun₂, hsp₂, hown₂, ⟨(hplaced.pushed hpushed₂ haddr.le).strings, fun i hi => ?_, ?_⟩,
    hsp₂ ▸ hpushed.trans hpushed₂ (by omega) (by omega)⟩
  · have hlt : args.length - i - 1 < (argAddrs args).reverse.length := by
      rw [List.length_reverse, length_argAddrs]
      omega
    have hword := hwords (args.length - i - 1 + 1) (Nat.succ_lt_succ hlt)
    rw [List.getElem_cons_succ, List.getElem_reverse, getElem_argAddrs] at hword
    have hindex : (argAddrs args).length - 1 - (args.length - i - 1) = i := by
      rw [length_argAddrs]
      omega
    rw [hindex, show sp₁.toNat - 8 * (args.length - i - 1 + 1 + 1) = argvAddr args + 8 * i by omega] at hword
    exact hword
  · have hword := hwords 0 (by omega)
    rw [show argvAddr args + 8 * args.length = sp₁.toNat - 8 * (0 + 1) by omega]
    exact hword

end Ucore.Exec
