import Mathlib.Algebra.Order.Ring.Int
import Mathlib.Data.List.Nodup
import Ucore.Lib.Transition

/-!
# Tokens that are handed out

A pool has tokens, and a queue of those who wait for one.  Who finds no token joins the queue at its end.
A token that comes back goes to the first of the queue, and into the pool only where nobody waits.

Along a trace no token is lost or handed out twice, and they go out in the order of the queue
(`accounted`).
-/

namespace Ucore.Tokens

open Transition

variable {π : Type*}

structure Pool (π : Type*) where
  tokens : ℤ
  waiting : List π

inductive Event (π : Type*)
  /-- A token comes back, and may go to somebody. -/
  | put (granted : Option π)
  | take (p : π)
  | queue (p : π)

inductive Step : Pool π → Event π → Pool π → Prop
  | put {n : ℤ} : Step ⟨n, []⟩ (.put none) ⟨n + 1, []⟩
  | grant {n : ℤ} {p : π} {q : List π} : Step ⟨n, p :: q⟩ (.put (some p)) ⟨n, q⟩
  | take {n : ℤ} {p : π} {q : List π} (h : 0 < n) : Step ⟨n, q⟩ (.take p) ⟨n - 1, q⟩
  | queue {n : ℤ} {p : π} {q : List π} (h : ¬ 0 < n) : Step ⟨n, q⟩ (.queue p) ⟨n, q ++ [p]⟩

/-! ### What an observer counts -/

def Event.isPut : Event π → Bool
  | .put _ => true
  | _ => false

def Event.granted : Event π → Option π
  | .put p => p
  | _ => none

def Event.taken : Event π → Option π
  | .take p => some p
  | _ => none

def Event.queued : Event π → Option π
  | .queue p => some p
  | _ => none

/-- The tokens that came back. -/
def puts (es : List (Event π)) : ℕ := es.countP Event.isPut

/-- Who got a token that came back, in this order. -/
def granted (es : List (Event π)) : List π := es.filterMap Event.granted

/-- Who found a token. -/
def taken (es : List (Event π)) : List π := es.filterMap Event.taken

/-- Who joined the queue, in this order. -/
def queued (es : List (Event π)) : List π := es.filterMap Event.queued

variable {n₀ : ℤ} {es : List (Event π)} {s s' : Pool π} {e : Event π}

@[simp] theorem puts_snoc (es : List (Event π)) (e : Event π) :
    puts (es ++ [e]) = puts es + if e.isPut then 1 else 0 := by
  rw [puts, List.countP_append, List.countP_singleton]
  rfl

@[simp] theorem granted_snoc (es : List (Event π)) (e : Event π) :
    granted (es ++ [e]) = granted es ++ e.granted.toList := by
  rw [granted, List.filterMap_append]
  cases e with
  | put p => cases p <;> rfl
  | _ => rfl

@[simp] theorem taken_snoc (es : List (Event π)) (e : Event π) :
    taken (es ++ [e]) = taken es ++ e.taken.toList := by
  rw [taken, List.filterMap_append]
  cases e <;> rfl

@[simp] theorem queued_snoc (es : List (Event π)) (e : Event π) :
    queued (es ++ [e]) = queued es ++ e.queued.toList := by
  rw [queued, List.filterMap_append]
  cases e <;> rfl

/-- The books of a pool that started with `n₀` tokens. -/
structure Accounted (n₀ : ℤ) (es : List (Event π)) (s : Pool π) : Prop where
  nonneg : 0 ≤ s.tokens
  idle : 0 < s.tokens → s.waiting = []
  tokens : n₀ + puts es = s.tokens + (taken es).length + (granted es).length
  order : queued es = granted es ++ s.waiting

theorem Accounted.step (h : Accounted n₀ es s) (hstep : Step s e s') :
    Accounted n₀ (es ++ [e]) s' := by
  obtain ⟨hnonneg, hidle, htokens, horder⟩ := h
  cases hstep with
  | put =>
    dsimp only at hnonneg htokens horder
    refine ⟨by dsimp only; omega, fun _ => rfl, ?_, ?_⟩
    · simp [Event.isPut, Event.granted, Event.taken]
      omega
    · simpa [Event.granted, Event.queued] using horder
  | grant =>
    dsimp only at htokens horder
    refine ⟨hnonneg, fun hpos => absurd (hidle hpos) (List.cons_ne_nil _ _), ?_, ?_⟩
    · simp [Event.isPut, Event.granted, Event.taken]
      omega
    · simpa [Event.granted, Event.queued] using horder
  | take hpos =>
    dsimp only at htokens horder
    refine ⟨by dsimp only; omega, fun _ => hidle hpos, ?_, ?_⟩
    · simp [Event.isPut, Event.granted, Event.taken]
      omega
    · simpa [Event.granted, Event.queued] using horder
  | queue hnot =>
    refine ⟨hnonneg, fun hpos => absurd hpos hnot, ?_, ?_⟩
    · simpa [Event.isPut, Event.granted, Event.taken] using htokens
    · simp [Event.granted, Event.queued, horder]

/-- **The books are right along a trace.** -/
theorem accounted (h₀ : 0 ≤ n₀) (h : Trace Step ⟨n₀, []⟩ es s) : Accounted n₀ es s := by
  induction h with
  | nil => exact ⟨h₀, fun _ => rfl, by simp [puts, taken, granted], rfl⟩
  | snoc _ hstep ih => exact ih.step hstep

end Ucore.Tokens
