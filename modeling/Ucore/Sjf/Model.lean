import Mathlib.Data.BitVec
import Ucore.Lib.Fallible
import Ucore.SkewHeap

/-!
# Shortest job first in lab6 (`lab6/kern/schedule/sjf_sched.c`)

The processes with the fields that this scheduling class uses, and its run queue.  A process is a number.

`proc_sjf_comp` subtracts two values of type `int32_t`.  Where the difference does not fit, C leaves it
open what it is; the functions take `overflow` for that value.  `depth` bounds the recursion of the heap
functions.
-/

namespace Ucore.Sjf

open Function Fallible HeapTree

def MAX_TIME_SLICE : BitVec 32 := 5

/-- The fields of `struct proc_struct`.  `rq` says whether the pointer to the run queue is set. -/
structure Proc where
  pid : ℤ
  lab6ExpectedRuntime : BitVec 32
  timeSlice : BitVec 32
  rq : Bool
  deriving DecidableEq, Repr

/-- The assertions of the run queue, and a recursion deeper than `depth`. -/
inductive Panic
  | enqueue
  | dequeue
  | procNum
  | endless
  deriving DecidableEq, Repr

/-- The processes and `struct run_queue`. -/
structure State where
  proc : ℕ → Proc
  links : Links ℕ
  lab6RunPool : Option ℕ
  runList : List ℕ
  procNum : ℕ
  maxTimeSlice : BitVec 32

/-- The difference of two values of type `int32_t`. -/
def int32Sub (overflow : ℤ → ℤ) (x y : ℤ) : ℤ :=
  if -2 ^ 31 ≤ x - y ∧ x - y < 2 ^ 31 then x - y else overflow (x - y)

namespace State

def setProc (p : ℕ) (P : Proc) (s : State) : State := { s with proc := update s.proc p P }

@[simp] theorem setProc_self (s : State) (p : ℕ) (P : Proc) : (s.setProc p P).proc p = P :=
  update_self _ _ _

theorem setProc_of_ne (s : State) {p q : ℕ} (P : Proc) (h : q ≠ p) :
    (s.setProc p P).proc q = s.proc q := update_of_ne h _ _

/-- `proc_sjf_comp`. -/
def procSjfComp (overflow : ℤ → ℤ) (s : State) (p q : ℕ) : ℤ :=
  let diff := int32Sub overflow (s.proc p).lab6ExpectedRuntime.toInt
    (s.proc q).lab6ExpectedRuntime.toInt
  if diff > 0 then 1
  else if diff < 0 then -1
  else if (s.proc p).pid > (s.proc q).pid then 1
  else if (s.proc p).pid < (s.proc q).pid then -1
  else 0

/-- `sjf_init`. -/
def sjfInit (s : State) : State := { s with runList := [], procNum := 0, lab6RunPool := none }

/-- The result of a heap function becomes the run pool. -/
def setRunPool (result : Option (Option ℕ × Links ℕ)) (s : State) : Except Panic State :=
  match result with
  | some (pool, links) => .ok { s with lab6RunPool := pool, links := links }
  | none => .error .endless

/-- The expected runtime with which `sjf_enqueue` puts `p` into the queue. -/
def enqueuedRuntime (p : ℕ) (s : State) : BitVec 32 :=
  if (s.proc p).lab6ExpectedRuntime = 0 then s.maxTimeSlice else (s.proc p).lab6ExpectedRuntime

/-- The assignments of `sjf_enqueue` before the insertion into the heap. -/
def linkProc (p : ℕ) (s : State) : State :=
  { s with
    proc := update s.proc p { s.proc p with
      lab6ExpectedRuntime := s.enqueuedRuntime p, timeSlice := s.enqueuedRuntime p, rq := true }
    runList := s.runList ++ [p] }

/-- `sjf_enqueue`. -/
def sjfEnqueue (overflow : ℤ → ℤ) (depth p : ℕ) (s : State) : Except Panic State := do
  require ((s.proc p).rq = false) .enqueue
  let s := s.linkProc p
  let s ← s.setRunPool (skewHeapInsert (s.procSjfComp overflow) depth s.lab6RunPool p s.links)
  pure { s with procNum := s.procNum + 1 }

/-- The assignments of `sjf_dequeue` after the removal from the heap. -/
def unlinkProc (p : ℕ) (s : State) : State :=
  { s with
    proc := update s.proc p { s.proc p with rq := false }
    runList := s.runList.erase p }

/-- `sjf_dequeue`. -/
def sjfDequeue (overflow : ℤ → ℤ) (depth p : ℕ) (s : State) : Except Panic State := do
  require ((s.proc p).rq = true) .dequeue
  let s ← s.setRunPool (skewHeapRemove (s.procSjfComp overflow) depth s.lab6RunPool p s.links)
  let s := s.unlinkProc p
  require (0 < s.procNum) .procNum
  pure { s with procNum := s.procNum - 1 }

/-- `sjf_pick_next`. -/
def sjfPickNext (s : State) : Option ℕ := s.lab6RunPool

/-- `sjf_proc_tick`. -/
def sjfProcTick (p : ℕ) (s : State) : State :=
  s.setProc p { s.proc p with timeSlice := (s.proc p).lab6ExpectedRuntime }

/-- `lab6_set_expected_runtime`, when `p` is `current`. -/
def lab6SetExpectedRuntime (p : ℕ) (runtime : BitVec 32) (s : State) : State :=
  s.setProc p { s.proc p with
    lab6ExpectedRuntime := if runtime = 0 then MAX_TIME_SLICE else runtime }

end State

end Ucore.Sjf
