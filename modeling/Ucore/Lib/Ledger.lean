import Mathlib.Logic.Function.Basic

/-!
# Ledgers

A log of things taken and given back, each for a key; the last call comes first.  `outstanding k log`
is what `k` has taken and not yet given back.  It is `none` when the calls for `k` have not
alternated: a second thing taken before the first was given back, or a thing given back that was not
there.  So as long as it is some value, every thing taken so far is given back once at most, and all
but the outstanding one exactly once.
-/

namespace Ucore.Ledger

/-- A thing `n` is taken for the key `k`, or given back. -/
inductive Call (K N : Type*)
  | take (k : K) (n : N)
  | give (k : K) (n : N)

variable {K N : Type*}

def Call.key : Call K N → K
  | .take k _ | .give k _ => k

/-- One call for the key. -/
def Call.apply [DecidableEq N] : Call K N → Option N → Option (Option N)
  | .take _ n, none => some (some n)
  | .give _ n, some m => if m = n then some none else none
  | _, _ => none

variable [DecidableEq K] [DecidableEq N] {k : K} {n : N} {c : Call K N} {log : List (Call K N)}

def outstanding (k : K) : List (Call K N) → Option (Option N)
  | [] => some none
  | c :: log => if c.key = k then (outstanding k log).bind c.apply else outstanding k log

theorem outstanding_cons_of_ne (h : c.key ≠ k) : outstanding k (c :: log) = outstanding k log :=
  if_neg h

theorem outstanding_take (h : outstanding k log = some none) :
    outstanding k (.take k n :: log) = some (some n) := by
  rw [outstanding, if_pos (show (Call.take k n).key = k from rfl), h]
  rfl

theorem outstanding_give (h : outstanding k log = some (some n)) :
    outstanding k (.give k n :: log) = some none := by
  rw [outstanding, if_pos (show (Call.give k n).key = k from rfl), h]
  exact if_pos rfl

end Ucore.Ledger
