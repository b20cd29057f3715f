import Ucore.Lib.Transition
import Ucore.Proc.Pid

/-!
# Histories of process numbers

`do_fork` takes a pid with `get_pid` and puts the process at the head of `proc_list`; `do_wait` takes
it out again with `remove_links`.  Between two calls processes may go, and the fast path of `get_pid`
still relies on the `next_safe` of an earlier pass.

* **`pidRuns`**: in every history `get_pid` ends with a pid of no live process, and leaves no live pid
  between `last_pid` and `next_safe`.
-/

namespace Ucore.Proc

open Relation Transition

/-- The pids in `proc_list`, and the static variables of `get_pid`. -/
structure PidState where
  pids : List ℤ
  lastPid : ℤ
  nextSafe : ℤ
  deriving DecidableEq

/-- No process yet. -/
def PidState.boot : PidState := ⟨[], MAX_PID, MAX_PID⟩

inductive PidEvent
  /-- `get_pid` and `set_links` in `do_fork` -/
  | create
  /-- `remove_links` -/
  | remove (pid : ℤ)

/-- What an event does.  `do_fork` checks `nr_process`, which counts `idleproc` as well, before. -/
def PidState.next (s : PidState) : PidEvent → Option PidState
  | .create =>
    if (s.pids.length : ℤ) < MAX_PROCESS then
      (getPid s.pids s.lastPid s.nextSafe).map fun r => ⟨r.1 :: s.pids, r.1, r.2⟩
    else none
  | .remove pid => if pid ∈ s.pids then some { s with pids := s.pids.erase pid } else none

/-- One event. -/
def PidStep (s s' : PidState) : Prop := ∃ e, s.next e = some s'

/-- **The invariant**: that of `get_pid`, and distinct pids within the bounds. -/
structure PidState.Inv (s : PidState) : Prop where
  ok : PidOk s.pids s.lastPid s.nextSafe
  nodup : s.pids.Nodup
  range : ∀ pid ∈ s.pids, 1 ≤ pid ∧ pid < MAX_PID

theorem PidState.boot_inv : PidState.boot.Inv := by
  refine ⟨⟨by decide, le_rfl, ?_⟩, List.nodup_nil, ?_⟩
  · intro pid hpid
    exact absurd hpid List.not_mem_nil
  · intro pid hpid
    exact absurd hpid List.not_mem_nil

/-- With fewer than `MAX_PROCESS` processes `get_pid` ends. -/
theorem PidState.Inv.getPid {s : PidState} (h : s.Inv) (hlive : (s.pids.length : ℤ) < MAX_PROCESS) :
    ∃ l n, getPid s.pids s.lastPid s.nextSafe = some (l, n) ∧ Fresh s.pids l n := by
  refine getPid_ok h.ok (hlive.trans ?_)
  decide

/-- **An event keeps it.** -/
theorem PidState.Inv.step {s s' : PidState} (h : s.Inv) (hstep : PidStep s s') : s'.Inv := by
  obtain ⟨e, he⟩ := hstep
  cases e with
  | create =>
    rw [PidState.next] at he
    split at he
    case isFalse => exact nomatch he
    case isTrue hlive =>
      obtain ⟨l, n, hget, hfresh⟩ := h.getPid hlive
      rw [hget, Option.map_some] at he
      cases he
      refine ⟨hfresh.pidOk, List.nodup_cons.mpr ⟨hfresh.notMem, h.nodup⟩, ?_⟩
      intro pid hpid
      rcases List.mem_cons.mp hpid with rfl | hpid
      · exact ⟨hfresh.pos, hfresh.lt.trans_le hfresh.safe⟩
      · exact h.range pid hpid
  | remove pid =>
    rw [PidState.next] at he
    split at he
    case isFalse => exact nomatch he
    case isTrue =>
      cases he
      have hsub : s.pids.erase pid ⊆ s.pids := List.erase_subset
      exact ⟨h.ok.mono hsub, h.nodup.erase pid, fun p hp => h.range p (hsub hp)⟩

/-- Before a pid is listed, no live process has one from it on. -/
theorem Fresh.pidOk_before {pids : List ℤ} {l n : ℤ} (h : Fresh pids l n) : PidOk pids l n :=
  h.pidOk.mono (List.subset_cons_self l pids)

/-- **`get_pid` in every history.** -/
theorem pidRuns {s : PidState} (hrun : ReflTransGen PidStep PidState.boot s) :
    PidOk s.pids s.lastPid s.nextSafe ∧ s.pids.Nodup ∧
      ((s.pids.length : ℤ) < MAX_PROCESS →
        ∃ l n, getPid s.pids s.lastPid s.nextSafe = some (l, n) ∧ 1 ≤ l ∧ l < MAX_PID ∧
          l ∉ s.pids ∧ PidOk s.pids l n ∧ PidOk (l :: s.pids) l n) := by
  have hinv : s.Inv := invariant (fun _ _ h hstep => h.step hstep) hrun PidState.boot_inv
  refine ⟨hinv.ok, hinv.nodup, ?_⟩
  intro hlive
  obtain ⟨l, n, hget, hfresh⟩ := hinv.getPid hlive
  exact ⟨l, n, hget, hfresh.pos, hfresh.lt.trans_le hfresh.safe, hfresh.notMem, hfresh.pidOk_before,
    hfresh.pidOk⟩

/-- Two processes come, the first goes, and the next one gets the third number. -/
theorem pidRuns_three : PidOk [2] 2 MAX_PID ∧ ([2] : List ℤ).Nodup ∧
    ((([2] : List ℤ).length : ℤ) < MAX_PROCESS →
      ∃ l n, getPid [2] 2 MAX_PID = some (l, n) ∧ 1 ≤ l ∧ l < MAX_PID ∧ l ∉ ([2] : List ℤ) ∧
        PidOk [2] l n ∧ PidOk [l, 2] l n) := by
  have hone : PidStep PidState.boot ⟨[1], 1, MAX_PID⟩ := ⟨.create, by decide⟩
  have htwo : PidStep ⟨[1], 1, MAX_PID⟩ ⟨[2, 1], 2, MAX_PID⟩ := ⟨.create, by decide⟩
  have hgone : PidStep ⟨[2, 1], 2, MAX_PID⟩ ⟨[2], 2, MAX_PID⟩ := ⟨.remove 1, by decide⟩
  exact pidRuns (((ReflTransGen.single hone).tail htwo).tail hgone)

end Ucore.Proc
