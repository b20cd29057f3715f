import Mathlib.Data.Nat.Digits.Lemmas
import Ucore.Printfmt.Model

/-!
# Numerals

The digits of a number come out in the order in which the calls of `printnum` return, and the pad characters come
from the deepest call, with a width that every call has decremented (`printnum_eq`).

**`printnum_iff`**: there are as many pad characters as are missing up to the width, provided that the decrements
do not leave the range of `int`.
-/

namespace Ucore.Printfmt

variable {env : Env} {num base depth d : ℕ} {width padc : ℤ}

theorem padLoop_eq (padc width : ℤ) : padLoop padc width = List.replicate width.toNat padc := by
  induction hn : width.toNat generalizing width with
  | zero =>
    rw [padLoop, if_neg (by omega), List.replicate_zero]
  | succ n ih =>
    rw [padLoop, if_pos (by omega), ih (width - 1) (by omega), List.replicate_succ]

/-- The numeral of a number, without leading zeros. -/
def numeral (base num : ℕ) : List ℤ :=
  if num = 0 then [digitChar 0] else ((Nat.digits base num).reverse).map digitChar

/-- The width that one call of `printnum` passes on. -/
def narrow (env : Env) (width : ℤ) : ℤ := int32 env (width - 1)

theorem numeral_of_lt (h : num < base) : numeral base num = [digitChar (num % base)] := by
  rw [numeral]
  split
  · rename_i h0
    rw [h0, Nat.zero_mod]
  · rename_i h0
    rw [Nat.digits_of_lt base num h0 h, Nat.mod_eq_of_lt h]
    rfl

theorem numeral_of_le (hbase : 2 ≤ base) (h : base ≤ num) :
    numeral base num = numeral base (num / base) ++ [digitChar (num % base)] := by
  have h0 : num ≠ 0 := by omega
  have hdiv : num / base ≠ 0 := Nat.ne_of_gt (Nat.div_pos h (by omega))
  rw [numeral, numeral, if_neg h0, if_neg hdiv, Nat.digits_def' hbase (by omega), List.reverse_cons,
    List.map_append]
  rfl

theorem length_numeral_le (hbase : 2 ≤ base) (hdepth : 0 < depth) (h : num < base ^ depth) :
    (numeral base num).length ≤ depth := by
  rw [numeral]
  split
  · exact hdepth
  · rw [List.length_map, List.length_reverse]
    exact (Nat.digits_length_le_iff hbase num).2 h

/-- **`printnum`** comes back when its depth suffices for the digits. -/
theorem printnum_eq (hbase : 2 ≤ base) (h : num < base ^ (depth + 1)) :
    printnum env (depth + 1) num base width padc =
      some (padLoop padc ((narrow env)^[(numeral base num).length] width) ++ numeral base num) := by
  induction depth generalizing num width with
  | zero =>
    rw [Nat.zero_add, Nat.pow_one] at h
    rw [printnum, numeral_of_lt h, if_neg (Nat.not_le.2 h)]
    rfl
  | succ depth ih =>
    rw [printnum]
    by_cases hge : num ≥ base
    · have hlt : num / base < base ^ (depth + 1) := by
        rw [Nat.div_lt_iff_lt_mul (by omega), ← Nat.pow_succ]
        exact h
      rw [if_pos hge, ih hlt, numeral_of_le hbase hge, List.length_append, List.length_singleton,
        Function.iterate_succ_apply, Option.map_some, List.append_assoc]
      rfl
    · rw [if_neg hge, numeral_of_lt (Nat.not_le.1 hge)]
      rfl

/-- Decrements inside the range of `int`. -/
theorem narrow_iterate (hwidth : width < 2 ^ 31) (h : -2 ^ 31 ≤ width - d) :
    (narrow env)^[d] width = width - d := by
  induction d generalizing width with
  | zero => simp
  | succ d ih =>
    have hnarrow : narrow env width = width - 1 := if_pos (by omega)
    rw [Function.iterate_succ_apply, hnarrow, ih (by omega) (by omega)]
    omega

/-- When a decrement overflows to the largest `int`, a few more decrements do not make the width small. -/
theorem narrow_iterate_pos (henv : ∀ x, env.overflow x = 2 ^ 31 - 1) (hwidth : -2 ^ 31 ≤ width)
    (hlt : width < 2 ^ 31) (hd : d ≤ 64) (h : width - d < -2 ^ 31) :
    0 < (narrow env)^[d] width := by
  induction d generalizing width with
  | zero => omega
  | succ d ih =>
    rw [Function.iterate_succ_apply]
    by_cases hmin : width = -2 ^ 31
    · have hnarrow : narrow env width = 2 ^ 31 - 1 := by
        rw [narrow, int32, if_neg (by omega), henv]
      rw [hnarrow, narrow_iterate (by omega) (by omega)]
      omega
    · have hnarrow : narrow env width = width - 1 := if_pos (by omega)
      rw [hnarrow]
      exact ih (by omega) (by omega) (by omega) (by omega)

/-- A 64-bit number has at most 64 digits. -/
theorem lt_pow_base (num : BitVec 64) (hbase : 2 ≤ base) : num.toNat < base ^ (63 + 1) :=
  num.isLt.trans_le (Nat.pow_le_pow_left hbase 64)

/-- **The output of `printnum`.**  It is the numeral behind as many pad characters as are missing up to the width,
whatever an overflow yields, exactly when the width minus the number of digits is in the range of `int`. -/
theorem printnum_iff (num : BitVec 64) (hbase : 2 ≤ base) (width : BitVec 32) (padc : ℤ) :
    (∀ overflow, printnum ⟨overflow⟩ 64 num.toNat base width.toInt padc =
        some (List.replicate (width.toInt - (numeral base num.toNat).length).toNat padc ++
          numeral base num.toNat)) ↔
      -2 ^ 31 ≤ width.toInt - (numeral base num.toNat).length := by
  have hlen := length_numeral_le hbase (by decide) (lt_pow_base num hbase)
  have hlo : -2 ^ 31 ≤ width.toInt := BitVec.le_toInt width
  have hhi : width.toInt < 2 ^ 31 := BitVec.toInt_lt
  constructor
  · intro h
    by_contra hlt
    have hpos : 0 < (narrow ⟨fun _ => 2 ^ 31 - 1⟩)^[(numeral base num.toNat).length] width.toInt :=
      narrow_iterate_pos (fun _ => rfl) hlo hhi hlen (by omega)
    have heq := h fun _ => 2 ^ 31 - 1
    rw [printnum_eq hbase (lt_pow_base num hbase), padLoop_eq] at heq
    have hpads := congrArg List.length (List.append_cancel_right (Option.some.inj heq))
    rw [List.length_replicate, List.length_replicate] at hpads
    omega
  · intro h overflow
    rw [printnum_eq hbase (lt_pow_base num hbase), narrow_iterate hhi h, padLoop_eq]

end Ucore.Printfmt
