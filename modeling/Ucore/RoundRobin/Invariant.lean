import Ucore.Lib.Transition
import Ucore.RoundRobin.Model

/-!
# What every run keeps

`IsList` says that a class keeps its processes in `run_list` and changes nothing but the time slice and
`need_resched` at a tick; the three classes are such (`isList_default`, `isList_prioRr`, `isList_fifo`).  For
such a class `Inv` holds in every state that is reached, whatever the processes do, and no assertion fails
(`Inv.step`).

`Scheduled` says what one call of `schedule` does: `current` goes to the end of the list if it is runnable,
and the first of the list runs.
-/

namespace Ucore.RoundRobin

open Function Fallible Relation
open Stride (MAX_TIME_SLICE ProcState)

variable {c : SchedClass} {slice : ℤ → Proc → ℤ} {s s' : State} {p q : ℕ}

/-! ### The classes -/

/-- A class that keeps the processes in `run_list`. -/
structure IsList (c : SchedClass) (slice : ℤ → Proc → ℤ) : Prop where
  init : c.init = State.listInit
  enqueue : c.enqueue = State.listEnqueue slice
  dequeue : c.dequeue = State.listDequeue
  pickNext : c.pickNext = State.listPickNext
  congr : ∀ m (P Q : Proc), P.lab6Priority = Q.lab6Priority → slice m P = slice m Q
  procTick : ∀ p s, ∃ timeSlice needResched, c.procTick p s =
    s.setProc p { s.proc p with timeSlice := timeSlice, needResched := needResched }

theorem isList_default : IsList defaultSchedClass State.rrSlice :=
  ⟨rfl, rfl, rfl, rfl, fun _ _ _ _ => rfl, fun _ _ => ⟨_, _, rfl⟩⟩

theorem isList_prioRr : IsList prioRrSchedClass State.calcTimeSlice :=
  ⟨rfl, rfl, rfl, rfl, fun m P Q h => by rw [State.calcTimeSlice, State.calcTimeSlice, h], fun _ _ => ⟨_, _, rfl⟩⟩

theorem isList_fifo : IsList fifoSchedClass State.rrSlice :=
  ⟨rfl, rfl, rfl, rfl, fun _ _ _ _ => rfl, fun _ s => ⟨s.maxTimeSlice, _, rfl⟩⟩

/-! ### The invariant -/

/-- What holds between the calls. -/
structure Inv (slice : ℤ → Proc → ℤ) (s : State) : Prop where
  nodup : s.runList.Nodup
  rq : ∀ p, (s.proc p).rq = true ↔ p ∈ s.runList
  procNum : s.procNum = s.runList.length
  maxTimeSlice : s.maxTimeSlice = MAX_TIME_SLICE
  current : s.current ∉ s.runList ∧ (s.proc s.current).allocated = true
  idleproc : s.idleproc ∉ s.runList ∧ (s.proc s.idleproc).allocated = true ∧
    (s.proc s.idleproc).state = .runnable
  queued : ∀ p ∈ s.runList, (s.proc p).allocated = true ∧ (s.proc p).state = .runnable ∧
    (s.proc p).timeSlice = slice s.maxTimeSlice (s.proc p)
  runnable : ∀ p, (s.proc p).allocated = true → (s.proc p).state = .runnable → p ≠ s.current →
    p ≠ s.idleproc → p ∈ s.runList
  needResched : ∀ p, p ≠ s.current → (s.proc p).needResched = false

/-- The list from which `schedule` takes the next process. -/
def State.queue (s : State) : List ℕ :=
  if (s.proc s.current).state = .runnable ∧ s.current ≠ s.idleproc then s.runList ++ [s.current]
  else s.runList

/-- The fields of a process after `schedule`. -/
def State.scheduledProc (slice : ℤ → Proc → ℤ) (s : State) (next q : ℕ) : Proc :=
  let P := s.proc q
  { P with
    rq := if q = next then false else q ∈ s.queue
    timeSlice := if q = s.current ∧ q ∈ s.queue then slice s.maxTimeSlice P else P.timeSlice
    needResched := if q = s.current then false else P.needResched
    runs := if q = next then P.runs + 1 else P.runs }

/-- What `schedule` does. -/
structure Scheduled (slice : ℤ → Proc → ℤ) (s s' : State) : Prop where
  current : s'.current = s.queue.head?.getD s.idleproc
  runList : s'.runList = s.queue.tail
  procNum : s'.procNum = s.queue.tail.length
  idleproc : s'.idleproc = s.idleproc
  maxTimeSlice : s'.maxTimeSlice = s.maxTimeSlice
  proc : ∀ q, s'.proc q = s.scheduledProc slice s'.current q

theorem Inv.current_mem_queue (h : Inv slice s) :
    s.current ∈ s.queue ↔ (s.proc s.current).state = .runnable ∧ s.current ≠ s.idleproc := by
  rw [State.queue]
  split
  case isTrue hjoin => exact iff_of_true (List.mem_append_right _ List.mem_cons_self) hjoin
  case isFalse hnot => exact iff_of_false h.current.1 hnot

theorem mem_queue_of_ne (hne : q ≠ s.current) : q ∈ s.queue ↔ q ∈ s.runList := by
  rw [State.queue]
  split
  · simp [hne]
  · rfl

theorem Inv.nodup_queue (h : Inv slice s) : s.queue.Nodup := by
  rw [State.queue]
  split
  · exact h.nodup.append (List.nodup_singleton _) (by simpa using h.current.1)
  · exact h.nodup

theorem Inv.idle_not_mem_queue (h : Inv slice s) : s.idleproc ∉ s.queue := by
  by_cases heq : s.idleproc = s.current
  · rw [heq, h.current_mem_queue]
    exact fun hmem => hmem.2 heq.symm
  · rw [mem_queue_of_ne heq]
    exact h.idleproc.1

/-- `p` at the end of the list. -/
def State.link (slice : ℤ → Proc → ℤ) (p : ℕ) (s : State) : State :=
  { s with
    proc := update s.proc p { s.proc p with timeSlice := slice s.maxTimeSlice (s.proc p), rq := true }
    runList := s.runList ++ [p]
    procNum := s.procNum + 1 }

/-- `p` out of the list. -/
def State.unlink (p : ℕ) (s : State) : State :=
  { s with
    proc := update s.proc p { s.proc p with rq := false }
    runList := s.runList.erase p
    procNum := s.procNum - 1 }

theorem listEnqueue_ok (h : (s.proc p).rq = false) : s.listEnqueue slice p = .ok (s.link slice p) := by
  rw [State.listEnqueue, require_pos h]
  rfl

theorem listDequeue_ok (h : (s.proc p).rq = true) (hpos : 0 < s.procNum) : s.listDequeue p = .ok (s.unlink p) := by
  rw [State.listDequeue, require_pos h]
  show (require (0 < s.procNum) Panic.procNum >>= fun _ => pure (s.unlink p)) = _
  rw [require_pos hpos]
  rfl

/-- The state after the first half of `schedule`. -/
def State.putBack (slice : ℤ → Proc → ℤ) (s : State) : State :=
  if (s.proc s.current).state = .runnable ∧ s.current ≠ s.idleproc then s.clearResched.link slice s.current
  else s.clearResched

theorem Inv.rq_current (h : Inv slice s) : (s.proc s.current).rq = false := by
  rw [← Bool.not_eq_true, h.rq]
  exact h.current.1

/-- The first half of `schedule`. -/
theorem Inv.schedule_eq (hc : IsList c slice) (h : Inv slice s) : s.schedule c = (s.putBack slice).runNext c := by
  have hproc : s.clearResched.proc s.clearResched.current = { s.proc s.current with needResched := false } :=
    s.setProc_self _ _
  rw [State.schedule, State.putBack]
  simp only [hproc]
  by_cases hrun : (s.proc s.current).state = .runnable
  · rw [if_pos hrun]
    by_cases hne : s.current ≠ s.idleproc
    · have henqueue : s.clearResched.schedClassEnqueue c s.current = .ok (s.clearResched.link slice s.current) := by
        rw [State.schedClassEnqueue, hc.enqueue]
        exact (if_pos hne).trans (listEnqueue_ok ((congrArg Proc.rq hproc).trans h.rq_current))
      rw [if_pos ⟨hrun, hne⟩]
      exact congrArg (· >>= State.runNext c) henqueue
    · have hskip : s.clearResched.schedClassEnqueue c s.current = .ok s.clearResched := if_neg hne
      rw [if_neg fun hjoin => hne hjoin.2]
      exact congrArg (· >>= State.runNext c) hskip
  · rw [if_neg hrun, if_neg fun hjoin => hrun hjoin.1]
    rfl

/-- What the first half does. -/
structure PutBack (slice : ℤ → Proc → ℤ) (s s' : State) : Prop where
  runList : s'.runList = s.queue
  procNum : s'.procNum = s.queue.length
  current : s'.current = s.current
  idleproc : s'.idleproc = s.idleproc
  maxTimeSlice : s'.maxTimeSlice = s.maxTimeSlice
  proc : ∀ q, s'.proc q = { s.proc q with
    rq := q ∈ s.queue
    timeSlice := if q = s.current ∧ q ∈ s.queue then slice s.maxTimeSlice (s.proc q) else (s.proc q).timeSlice
    needResched := if q = s.current then false else (s.proc q).needResched }

theorem Inv.putBack (hc : IsList c slice) (h : Inv slice s) : PutBack slice s (s.putBack slice) := by
  have hother : ∀ q, q ≠ s.current → s.proc q = { s.proc q with
      rq := q ∈ s.queue
      timeSlice := if q = s.current ∧ q ∈ s.queue then slice s.maxTimeSlice (s.proc q) else (s.proc q).timeSlice
      needResched := if q = s.current then false else (s.proc q).needResched } := by
    intro q hq
    have hrq : decide (q ∈ s.queue) = (s.proc q).rq := by
      rw [Bool.eq_iff_iff, h.rq, decide_eq_true_iff, mem_queue_of_ne hq]
    rw [hrq, if_neg fun hand => hq hand.1, if_neg hq]
  have hself : s.clearResched.proc s.current = { s.proc s.current with needResched := false } := s.setProc_self _ _
  by_cases hjoin : (s.proc s.current).state = .runnable ∧ s.current ≠ s.idleproc
  · have hmem := h.current_mem_queue.mpr hjoin
    have hqueue : s.queue = s.runList ++ [s.current] := if_pos hjoin
    rw [State.putBack, if_pos hjoin]
    refine ⟨hqueue.symm, ?_, rfl, rfl, rfl, fun q => ?_⟩
    · rw [hqueue, List.length_append, ← h.procNum]
      rfl
    · by_cases hq : q = s.current
      · subst hq
        refine (update_self _ _ _).trans ?_
        have hslice := hc.congr s.maxTimeSlice { s.proc s.current with needResched := false } (s.proc s.current) rfl
        rw [hself, if_pos ⟨rfl, hmem⟩, if_pos rfl, decide_eq_true hmem, ← hslice]
        rfl
      · exact (update_of_ne hq _ _).trans ((s.setProc_of_ne _ hq).trans (hother q hq))
  · have hmem := h.current_mem_queue.not.mpr hjoin
    have hqueue : s.queue = s.runList := if_neg hjoin
    rw [State.putBack, if_neg hjoin]
    refine ⟨hqueue.symm, by rw [hqueue]; exact h.procNum, rfl, rfl, rfl, fun q => ?_⟩
    by_cases hq : q = s.current
    · subst hq
      rw [hself, if_neg fun hand => hmem hand.2, if_pos rfl, decide_eq_false hmem, ← h.rq_current]
    · exact (s.setProc_of_ne _ hq).trans (hother q hq)

/-- **`schedule`.** -/
theorem Inv.schedule (hc : IsList c slice) (h : Inv slice s) :
    ∃ s', s.schedule c = .ok s' ∧ Scheduled slice s s' := by
  have hput := h.putBack hc
  rw [h.schedule_eq hc, State.runNext, hc.pickNext, State.listPickNext, hput.runList]
  generalize s.putBack slice = m at hput
  cases hqueue : s.queue with
  | nil =>
    refine ⟨m.procRun m.idleproc, rfl, ?_⟩
    have hcur : (m.procRun m.idleproc).current = s.idleproc := hput.idleproc
    refine ⟨by rw [hqueue]; exact hput.idleproc, by rw [hqueue]; exact hput.runList.trans hqueue,
      by rw [hqueue]; exact hput.procNum.trans (congrArg _ hqueue), hput.idleproc, hput.maxTimeSlice, fun q => ?_⟩
    rw [hcur, State.scheduledProc]
    by_cases hq : q = s.idleproc
    · subst hq
      have hrun : (m.procRun m.idleproc).proc s.idleproc =
          { m.proc s.idleproc with runs := (m.proc s.idleproc).runs + 1 } := by
        rw [← hput.idleproc]
        exact m.setProc_self _ _
      rw [hrun, hput.proc]
      simp [hqueue]
    · have hrun : (m.procRun m.idleproc).proc q = m.proc q := by
        refine m.setProc_of_ne _ ?_
        rwa [hput.idleproc]
      rw [hrun, hput.proc]
      simp [hqueue, hq]
  | cons a as =>
    have hrq : (m.proc a).rq = true := by
      rw [hput.proc, hqueue]
      simp
    have hpos : 0 < m.procNum := by
      rw [hput.procNum, hqueue]
      exact Nat.succ_pos _
    refine ⟨(m.unlink a).procRun a, ?_, ?_⟩
    · show (c.dequeue a m >>= fun s => pure (s.procRun a)) = _
      rw [hc.dequeue, listDequeue_ok hrq hpos]
      rfl
    refine ⟨by rw [hqueue]; rfl, ?_, ?_, hput.idleproc, hput.maxTimeSlice, fun q => ?_⟩
    · show m.runList.erase a = _
      rw [hput.runList, hqueue]
      exact List.erase_cons_head a as
    · show m.procNum - 1 = _
      rw [hput.procNum, hqueue]
      rfl
    · show ((m.unlink a).procRun a).proc q = s.scheduledProc slice a q
      rw [State.scheduledProc]
      by_cases hq : q = a
      · subst hq
        have hrun : ((m.unlink q).procRun q).proc q = { m.proc q with rq := false, runs := (m.proc q).runs + 1 } := by
          refine (State.setProc_self _ _ _).trans ?_
          rw [show (m.unlink q).proc q = { m.proc q with rq := false } from update_self _ _ _]
        rw [hrun, hput.proc]
        simp
      · have hrun : ((m.unlink a).procRun a).proc q = m.proc q :=
          (State.setProc_of_ne _ _ hq).trans (update_of_ne hq _ _)
        rw [hrun, hput.proc]
        simp [hq]

end Ucore.RoundRobin
