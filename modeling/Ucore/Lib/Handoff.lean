import Mathlib.Algebra.Order.Ring.Int
import Mathlib.Data.List.Nodup

/-!
# A lock that is handed over

The processes that have asked for a lock and not yet given it back form a queue, and the first of
them owns it.  Asking is joining at the end, giving back is leaving at the front: the next in the
queue owns the lock from that moment on, whether or not it has noticed.

A semaphore of value one with a first-in first-out wait queue keeps this queue in two parts: its
value tells whether the queue is empty, its wait queue is the queue without the owner.
`Guards` relates the two, and `Guards.join` and `Guards.leave` are the rules for the two operations.
-/

namespace Ucore.Handoff

variable {π : Type*} {value : ℤ} {waiting : List π} {C : Set π} {p q : π}

/-- The lock of value `value` and wait queue `waiting` guards the processes of `C`: one of them owns
it and all others wait for it. -/
inductive Guards : ℤ → List π → Set π → Prop
  | free {C : Set π} (hC : ∀ q, q ∉ C) : Guards 1 [] C
  | owned {waiting : List π} {C : Set π} (owner : π) (hnodup : (owner :: waiting).Nodup)
      (hC : ∀ q, q ∈ C ↔ q ∈ owner :: waiting) : Guards 0 waiting C

theorem Guards.mem_of_waiting (h : Guards value waiting C) (hp : p ∈ waiting) : p ∈ C := by
  cases h with
  | free hC => exact absurd hp List.not_mem_nil
  | owned owner hnodup hC => exact (hC p).mpr (List.mem_cons_of_mem _ hp)

/-- Two processes that do not wait are the same. -/
theorem Guards.eq (h : Guards value waiting C) (hp : p ∈ C) (hpw : p ∉ waiting) (hq : q ∈ C)
    (hqw : q ∉ waiting) : p = q := by
  cases h with
  | free hC => exact absurd hp (hC p)
  | owned owner hnodup hC =>
    have hpo : p = owner := (List.mem_cons.mp ((hC p).mp hp)).resolve_right hpw
    have hqo : q = owner := (List.mem_cons.mp ((hC q).mp hq)).resolve_right hqw
    exact hpo.trans hqo.symm

/-- While the lock is not free, somebody owns it. -/
theorem Guards.exists_owner (h : Guards value waiting C) (hp : p ∈ C) : ∃ q ∈ C, q ∉ waiting := by
  cases h with
  | free hC => exact absurd hp (hC p)
  | owned owner hnodup hC =>
    exact ⟨owner, (hC owner).mpr List.mem_cons_self, (List.nodup_cons.mp hnodup).1⟩

theorem Guards.congr (h : Guards value waiting C) {C' : Set π} (hC' : ∀ q, q ∈ C' ↔ q ∈ C) :
    Guards value waiting C' := by
  cases h with
  | free hC => exact .free fun q hq => hC q ((hC' q).mp hq)
  | owned owner hnodup hC => exact .owned owner hnodup fun q => (hC' q).trans (hC q)

/-! ### The two operations -/

/-- The free lock is taken. -/
theorem Guards.take (h : Guards value waiting C) (hv : 0 < value) {C' : Set π}
    (hC' : ∀ q, q ∈ C' ↔ q = p ∨ q ∈ C) : Guards (value - 1) waiting C' := by
  cases h with
  | owned owner hnodup hC => exact absurd hv (lt_irrefl 0)
  | free hC =>
    apply Guards.owned p (List.nodup_singleton p)
    intro q
    rw [hC', List.mem_singleton]
    exact or_iff_left (hC q)

/-- A process joins the queue of a lock that is not free. -/
theorem Guards.join (h : Guards value waiting C) (hv : ¬0 < value) (hp : p ∉ C) {C' : Set π}
    (hC' : ∀ q, q ∈ C' ↔ q = p ∨ q ∈ C) : Guards value (waiting ++ [p]) C' := by
  cases h with
  | free hC => exact absurd one_pos hv
  | owned owner hnodup hC =>
    apply Guards.owned owner
    · rw [← List.cons_append, List.nodup_append]
      have hnot : p ∉ owner :: waiting := fun hmem => hp ((hC p).mpr hmem)
      refine ⟨hnodup, List.nodup_singleton p, ?_⟩
      intro a ha b hb hab
      rw [List.mem_singleton] at hb
      subst hb hab
      exact hnot ha
    · intro q
      rw [hC', hC, ← List.cons_append, List.mem_append, List.mem_singleton]
      exact or_comm

/-- The owner gives the lock back and nobody waits. -/
theorem Guards.leave_nil (h : Guards value ([] : List π) C) (hp : p ∈ C) {C' : Set π}
    (hC' : ∀ q, q ∈ C' ↔ q ∈ C ∧ q ≠ p) : Guards (value + 1) ([] : List π) C' := by
  cases h with
  | free hC => exact absurd hp (hC p)
  | owned owner hnodup hC =>
    have hpo : p = owner := List.mem_singleton.mp ((hC p).mp hp)
    apply Guards.free
    intro q hq
    obtain ⟨hqC, hqp⟩ := (hC' q).mp hq
    exact hqp ((List.mem_singleton.mp ((hC q).mp hqC)).trans hpo.symm)

/-- The owner gives the lock back and the process that has waited longest owns it. -/
theorem Guards.leave_cons {w : π} (h : Guards value (w :: waiting) C) (hp : p ∈ C)
    (hpw : p ∉ w :: waiting) {C' : Set π} (hC' : ∀ q, q ∈ C' ↔ q ∈ C ∧ q ≠ p) :
    Guards value waiting C' := by
  cases h with
  | owned owner hnodup hC =>
    have hpo : p = owner := (List.mem_cons.mp ((hC p).mp hp)).resolve_right hpw
    subst hpo
    apply Guards.owned w (List.nodup_cons.mp hnodup).2
    intro q
    rw [hC', hC]
    constructor
    · intro hq
      exact (List.mem_cons.mp hq.1).resolve_left hq.2
    · intro hq
      exact ⟨List.mem_cons_of_mem _ hq, fun hqp => hpw (hqp ▸ hq)⟩

end Ucore.Handoff
