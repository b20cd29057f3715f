import Ucore.Lib.Handoff
import Ucore.Lib.Tokens

/-!
# Semaphores (`lab8/kern/sync/sem.c`)

A semaphore has a value and the queue of the processes asleep in `down`.  A process that finds no
token joins the queue at its end and calls `schedule`; it goes on when an `up` has taken it off the
queue.  An `up` that finds somebody in the queue wakes the first and leaves the value alone, so the
token goes to that process.

`down` here is what a process does until it returns or sleeps: it sleeps exactly when it is in the
queue afterwards.
-/

namespace Ucore.Sync

/-- `semaphore_t`. -/
structure Semaphore (π : Type*) where
  value : ℤ
  waitQueue : List π

variable {π : Type*} {sem : Semaphore π} {p : π} {C : Set π}

/-- `sem_init`. -/
def semInit (value : ℤ) : Semaphore π := ⟨value, []⟩

/-- `down`, until it returns or calls `schedule`. -/
def Semaphore.down (sem : Semaphore π) (p : π) : Semaphore π :=
  if 0 < sem.value then { sem with value := sem.value - 1 }
  else { sem with waitQueue := sem.waitQueue ++ [p] }

/-- `up`. -/
def Semaphore.up (sem : Semaphore π) : Semaphore π :=
  match sem.waitQueue with
  | [] => { sem with value := sem.value + 1 }
  | _ :: rest => { sem with waitQueue := rest }

theorem Semaphore.up_nil (h : sem.waitQueue = []) : sem.up = { sem with value := sem.value + 1 } := by
  obtain ⟨value, waitQueue⟩ := sem
  cases h
  rfl

theorem Semaphore.up_cons {rest : List π} (h : sem.waitQueue = p :: rest) :
    sem.up = { sem with waitQueue := rest } := by
  obtain ⟨value, waitQueue⟩ := sem
  cases h
  rfl

theorem Semaphore.mem_down {q : π} (h : q ∈ (sem.down p).waitQueue) :
    q ∈ sem.waitQueue ∨ q = p := by
  unfold Semaphore.down at h
  split at h
  · exact Or.inl h
  · rcases List.mem_append.mp h with h | h
    · exact Or.inl h
    · exact Or.inr (List.mem_singleton.mp h)

theorem Semaphore.mem_up {q : π} (h : q ∈ sem.up.waitQueue) : q ∈ sem.waitQueue := by
  unfold Semaphore.up at h
  split at h
  case h_1 hq => exact h
  case h_2 w rest hq =>
    rw [hq]
    exact List.mem_cons_of_mem _ h

/-! ### A semaphore as a lock -/

/-- The semaphore, initialised with 1, guards the processes of `C`: those that have called `down`
and not yet `up`. -/
def Semaphore.Guards (sem : Semaphore π) (C : Set π) : Prop :=
  Handoff.Guards sem.value sem.waitQueue C

theorem Semaphore.guards_init {C : Set π} (hC : ∀ q, q ∉ C) : (semInit 1 : Semaphore π).Guards C :=
  .free hC

theorem Semaphore.Guards.down (h : sem.Guards C) (hp : p ∉ C) {C' : Set π}
    (hC' : ∀ q, q ∈ C' ↔ q = p ∨ q ∈ C) : (sem.down p).Guards C' := by
  unfold Semaphore.down
  split
  case isTrue hv => exact Handoff.Guards.take h hv hC'
  case isFalse hv => exact Handoff.Guards.join h hv hp hC'

theorem Semaphore.Guards.up (h : sem.Guards C) (hp : p ∈ C) (hpw : p ∉ sem.waitQueue) {C' : Set π}
    (hC' : ∀ q, q ∈ C' ↔ q ∈ C ∧ q ≠ p) : sem.up.Guards C' := by
  unfold Semaphore.Guards at h
  unfold Semaphore.up
  split
  case h_1 hq =>
    rw [hq] at h
    show Handoff.Guards _ sem.waitQueue C'
    rw [hq]
    exact h.leave_nil hp hC'
  case h_2 w rest hq =>
    rw [hq] at h hpw
    exact h.leave_cons hp hpw hC'

/-! ### A semaphore as a pool of tokens -/

def Semaphore.pool (sem : Semaphore π) : Tokens.Pool π := ⟨sem.value, sem.waitQueue⟩

theorem Semaphore.step_up (sem : Semaphore π) :
    Tokens.Step sem.pool (.put sem.waitQueue.head?) sem.up.pool := by
  obtain ⟨value, waitQueue⟩ := sem
  cases waitQueue with
  | nil => exact .put
  | cons w rest => exact .grant

theorem Semaphore.step_down (sem : Semaphore π) (p : π) :
    Tokens.Step sem.pool (if 0 < sem.value then .take p else .queue p) (sem.down p).pool := by
  rw [Semaphore.down]
  split
  case isTrue hv => exact .take hv
  case isFalse hv => exact .queue hv

end Ucore.Sync
