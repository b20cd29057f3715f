import Mathlib.Data.List.Basic
import Mathlib.Logic.Function.Basic

/-!
# A store with reads and writes

What a history of accesses leaves in a store of values: at each key the last value written to it, or
the first one where none was.
-/

namespace Ucore.Store

open Function

variable {κ ν : Type*}

/-- An access, with the value that went over. -/
inductive Access (κ ν : Type*)
  | read (k : κ) (v : ν)
  | write (k : κ) (v : ν)

variable [DecidableEq κ]

/-- What an access leaves. -/
def Access.apply (f : κ → ν) : Access κ ν → κ → ν
  | .read _ _ => f
  | .write k v => update f k v

/-- What a history leaves. -/
def after (f : κ → ν) (es : List (Access κ ν)) : κ → ν := es.foldl Access.apply f

variable {f : κ → ν} {es : List (Access κ ν)} {k : κ} {v : ν}

theorem after_append (fs : List (Access κ ν)) : after f (es ++ fs) = after (after f es) fs :=
  List.foldl_append

/-- A key that is not written keeps its value. -/
theorem after_of_not_written (h : ∀ v, .write k v ∉ es) : after f es k = f k := by
  induction es generalizing f with
  | nil => rfl
  | cons e es ih =>
    have hrest : after (e.apply f) es k = e.apply f k :=
      ih fun v hv => h v (List.mem_cons_of_mem _ hv)
    refine Eq.trans hrest ?_
    cases e with
    | read => rfl
    | write k' v =>
      refine update_of_ne ?_ v f
      rintro rfl
      exact h v List.mem_cons_self

/-- **The last write** is what is left. -/
theorem after_last_write {fs : List (Access κ ν)} (h : ∀ v, .write k v ∉ fs) :
    after f (es ++ .write k v :: fs) k = v := by
  have hwritten : (Access.write k v).apply (after f es) k = v := by
    rw [Access.apply, update_self]
  rw [after_append]
  exact (after_of_not_written h).trans hwritten

end Ucore.Store
