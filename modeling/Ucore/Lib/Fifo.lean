import Mathlib.Data.List.Infix
import Ucore.Lib.Transition

/-!
# A queue of bounded length

Elements arrive one at a time and are taken from the front.  An element that finds the queue full is
dropped (`Step`).  `Log` is what an observer of the operations writes down: the elements that found
room, and the elements taken.  Along a trace the elements that found room are the ones taken and,
behind them, the ones still in the queue (`log_eq`).
-/

namespace Ucore.Fifo

open Transition

/-- An element arrives, or some are taken. -/
inductive Op (α : Type*)
  | put (a : α)
  | take (as : List α)

variable {α : Type*} {cap : ℕ} {q q' : List α} {ops : List (Op α)}

/-- An operation on a queue with room for `cap` elements. -/
inductive Step (cap : ℕ) : List α → Op α → List α → Prop
  | keep {q : List α} {a : α} (h : q.length < cap) : Step cap q (.put a) (q ++ [a])
  | drop {q : List α} {a : α} (h : cap ≤ q.length) : Step cap q (.put a) q
  | take {as q : List α} : Step cap (as ++ q) (.take as) q

/-- The elements that found room, and the elements taken, in their order. -/
structure Log (α : Type*) where
  kept : List α
  taken : List α

def Log.add (cap : ℕ) (l : Log α) : Op α → Log α
  | .put a => if l.kept.length - l.taken.length < cap then { l with kept := l.kept ++ [a] } else l
  | .take as => { l with taken := l.taken ++ as }

def log (cap : ℕ) (ops : List (Op α)) : Log α := ops.foldl (Log.add cap) ⟨[], []⟩

theorem log_snoc (op : Op α) : log cap (ops ++ [op]) = (log cap ops).add cap op := by
  rw [log, List.foldl_append]
  rfl

/-- What found room is what was taken and what is still there. -/
theorem log_eq (h : Trace (Step cap) [] ops q) :
    (log cap ops).kept = (log cap ops).taken ++ q := by
  induction h with
  | nil => rfl
  | @snoc q q' ops op h hstep ih =>
    rw [log_snoc]
    have hlength : (log cap ops).kept.length - (log cap ops).taken.length = q.length := by
      rw [ih, List.length_append, Nat.add_sub_cancel_left]
    cases hstep with
    | keep hroom =>
      rw [Log.add, if_pos (hlength ▸ hroom), ih]
      exact List.append_assoc _ _ _
    | drop hfull =>
      rw [Log.add, if_neg (by omega)]
      exact ih
    | take =>
      show (log cap ops).kept = ((log cap ops).taken ++ _) ++ _
      rw [ih, List.append_assoc]

end Ucore.Fifo
