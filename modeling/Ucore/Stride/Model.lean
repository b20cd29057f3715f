import Mathlib.Data.BitVec
import Ucore.Lib.Fallible
import Ucore.SkewHeap

/-!
# Stride scheduling in lab6 (`lab6/kern/schedule/default_sched_stride.c`, `sched.c`)

The processes with their scheduling fields, the one run queue, and `current`.  A process is a number;
`lab6_run_pool` is the heap of the runnable processes, and `run_list` the list that the scheduling class
keeps beside it.

`trueStride` counts the same steps as `lab6_stride`, in a number that does not wrap; nothing in the code
reads it.  `depth` bounds the recursion of the heap functions.
-/

namespace Ucore.Stride

open Function Fallible HeapTree

def BIG_STRIDE : BitVec 32 := 0x7fffffff

def MAX_TIME_SLICE : ℤ := 5

/-- `enum proc_state`. -/
inductive ProcState
  | uninit
  | sleeping
  | runnable
  | zombie
  deriving DecidableEq, Repr

/-- The fields of `struct proc_struct` that scheduling uses.  `rq` says whether the pointer to the run
queue is set, and `allocated` whether there is such a process. -/
structure Proc where
  allocated : Bool
  state : ProcState
  rq : Bool
  timeSlice : ℤ
  needResched : Bool
  runs : ℕ
  lab6Stride : BitVec 32
  lab6Priority : BitVec 32
  trueStride : ℕ
  deriving DecidableEq, Repr

/-- The assignments of `stride_pick_next` to the process that it picks. -/
def Proc.advance (P : Proc) : Proc :=
  let priority := if P.lab6Priority = 0 then 1 else P.lab6Priority
  { P with
    lab6Priority := priority
    lab6Stride := P.lab6Stride + BIG_STRIDE / priority
    trueStride := P.trueStride + (BIG_STRIDE / priority).toNat }

/-- The assertions of the run queue and of `wakeup_proc`, and a recursion deeper than `depth`. -/
inductive Panic
  | enqueue
  | dequeue
  | procNum
  | wakeupProc
  | endless
  deriving DecidableEq, Repr

/-- The processes, the run queue and `current`. -/
structure State where
  proc : ℕ → Proc
  links : Links ℕ
  lab6RunPool : Option ℕ
  runList : List ℕ
  procNum : ℕ
  maxTimeSlice : ℤ
  current : ℕ
  idleproc : ℕ

namespace State

def setProc (p : ℕ) (P : Proc) (s : State) : State := { s with proc := update s.proc p P }

@[simp] theorem setProc_self (s : State) (p : ℕ) (P : Proc) : (s.setProc p P).proc p = P :=
  update_self _ _ _

theorem setProc_of_ne (s : State) {p q : ℕ} (P : Proc) (h : q ≠ p) :
    (s.setProc p P).proc q = s.proc q := update_of_ne h _ _

/-! ### `default_sched_stride.c` -/

/-- `proc_stride_comp_f`. -/
def procStrideCompF (s : State) (p q : ℕ) : ℤ :=
  let c := ((s.proc p).lab6Stride - (s.proc q).lab6Stride).toInt
  if 0 < c then 1 else if c = 0 then 0 else -1

/-- The result of a heap function becomes the run pool. -/
def setRunPool (result : Option (Option ℕ × Links ℕ)) (s : State) : Except Panic State :=
  match result with
  | some (pool, links) => .ok { s with lab6RunPool := pool, links := links }
  | none => .error .endless

/-- The assignments of `stride_enqueue` before the insertion into the heap. -/
def linkProc (p : ℕ) (s : State) : State :=
  let priority := if (s.proc p).lab6Priority = 0 then 1 else (s.proc p).lab6Priority
  { s with
    proc := update s.proc p { s.proc p with
      lab6Priority := priority, timeSlice := s.maxTimeSlice, rq := true }
    runList := s.runList ++ [p] }

/-- `stride_enqueue`. -/
def strideEnqueue (depth p : ℕ) (s : State) : Except Panic State := do
  require ((s.proc p).rq = false) .enqueue
  let s := s.linkProc p
  let s ← s.setRunPool (skewHeapInsert s.procStrideCompF depth s.lab6RunPool p s.links)
  pure { s with procNum := s.procNum + 1 }

/-- The assignments of `stride_dequeue` after the removal from the heap. -/
def unlinkProc (p : ℕ) (s : State) : State :=
  { s with
    proc := update s.proc p { s.proc p with rq := false }
    runList := s.runList.erase p }

/-- `stride_dequeue`. -/
def strideDequeue (depth p : ℕ) (s : State) : Except Panic State := do
  require ((s.proc p).rq = true) .dequeue
  let s ← s.setRunPool (skewHeapRemove s.procStrideCompF depth s.lab6RunPool p s.links)
  let s := s.unlinkProc p
  require (0 < s.procNum) .procNum
  pure { s with procNum := s.procNum - 1 }

/-- `stride_pick_next`. -/
def stridePickNext (s : State) : Option ℕ × State :=
  match s.lab6RunPool with
  | none => (none, s)
  | some p => (some p, s.setProc p (s.proc p).advance)

/-- `stride_proc_tick`. -/
def strideProcTick (p : ℕ) (s : State) : State :=
  let timeSlice := if 0 < (s.proc p).timeSlice then (s.proc p).timeSlice - 1 else (s.proc p).timeSlice
  s.setProc p { s.proc p with
    timeSlice := timeSlice
    needResched := if timeSlice ≤ 0 then true else (s.proc p).needResched }

/-! ### `sched.c` -/

/-- `sched_class_enqueue`. -/
def schedClassEnqueue (depth p : ℕ) (s : State) : Except Panic State :=
  if p ≠ s.idleproc then s.strideEnqueue depth p else .ok s

/-- `sched_class_proc_tick`. -/
def schedClassProcTick (p : ℕ) (s : State) : State :=
  if p ≠ s.idleproc then s.strideProcTick p
  else s.setProc p { s.proc p with needResched := true }

/-- `wakeup_proc`. -/
def wakeupProc (depth p : ℕ) (s : State) : Except Panic State := do
  require ((s.proc p).state ≠ .zombie) .wakeupProc
  if (s.proc p).state ≠ .runnable then
    let s := s.setProc p { s.proc p with state := .runnable }
    if p ≠ s.current then s.schedClassEnqueue depth p else pure s
  else pure s

/-- `next->runs++` and `proc_run`. -/
def procRun (next : ℕ) (s : State) : State :=
  { s.setProc next { s.proc next with runs := (s.proc next).runs + 1 } with current := next }

/-- The second half of `schedule`, from `sched_class_pick_next` on. -/
def runNext (depth : ℕ) (s : State) : Except Panic State :=
  match s.stridePickNext with
  | (some next, s) => do
    let s ← s.strideDequeue depth next
    pure (s.procRun next)
  | (none, s) => pure (s.procRun s.idleproc)

/-- `current->need_resched = 0`. -/
def clearResched (s : State) : State :=
  s.setProc s.current { s.proc s.current with needResched := false }

/-- `schedule`. -/
def schedule (depth : ℕ) (s : State) : Except Panic State := do
  let s := s.clearResched
  let s ← if (s.proc s.current).state = .runnable then s.schedClassEnqueue depth s.current else pure s
  s.runNext depth

/-! ### `proc.c` -/

/-- `alloc_proc`, which gets the address `p`. -/
def allocProc (p : ℕ) (s : State) : State :=
  s.setProc p ⟨true, .uninit, false, 0, false, 0, 0, 1, 0⟩

/-- `do_fork`, as far as scheduling is concerned: the new process is woken up. -/
def doFork (depth p : ℕ) (s : State) : Except Panic State := (s.allocProc p).wakeupProc depth p

/-- The assignment `current->state = …` of `do_wait` and `do_exit`. -/
def setState (state : ProcState) (s : State) : State :=
  s.setProc s.current { s.proc s.current with state := state }

/-- `do_yield`. -/
def doYield (s : State) : State :=
  s.setProc s.current { s.proc s.current with needResched := true }

/-- `lab6_set_priority`. -/
def lab6SetPriority (priority : BitVec 32) (s : State) : State :=
  s.setProc s.current { s.proc s.current with
    lab6Priority := if priority = 0 then 1 else priority }

/-- `kfree(proc)` of `do_wait`. -/
def freeProc (p : ℕ) (s : State) : State := s.setProc p { s.proc p with allocated := false }

end State

end Ucore.Stride
