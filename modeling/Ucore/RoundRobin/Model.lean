import Ucore.Stride.Model

/-!
# The list schedulers of lab6 (`lab6/kern/schedule/default_sched.c`, `prio_rr_sched.c`, `fifo_sched.c`, `sched.c`)

Three of the five scheduling classes keep the runnable processes in `run_list` alone.  They differ in the
time slice that a process gets with its place in the list, and in what a tick of the timer does.  A process
is a number; `SchedClass` is the table of functions that `sched.c` calls.
-/

namespace Ucore.RoundRobin

open Function Fallible
open Stride (MAX_TIME_SLICE ProcState)

def MAX_PRIORITY_SLICE : ℤ := 8

/-- The fields of `struct proc_struct` that scheduling uses.  `rq` says whether the pointer to the run queue
is set, and `allocated` whether there is such a process. -/
structure Proc where
  allocated : Bool
  state : ProcState
  rq : Bool
  timeSlice : ℤ
  needResched : Bool
  runs : ℕ
  lab6Priority : BitVec 32
  deriving DecidableEq, Repr

/-- The assertions of the run queue and of `wakeup_proc`. -/
inductive Panic
  | enqueue
  | dequeue
  | procNum
  | wakeupProc
  deriving DecidableEq, Repr

/-- The processes, `struct run_queue` and `current`. -/
structure State where
  proc : ℕ → Proc
  runList : List ℕ
  procNum : ℕ
  maxTimeSlice : ℤ
  current : ℕ
  idleproc : ℕ

namespace State

def setProc (p : ℕ) (P : Proc) (s : State) : State := { s with proc := update s.proc p P }

@[simp] theorem setProc_self (s : State) (p : ℕ) (P : Proc) : (s.setProc p P).proc p = P :=
  update_self _ _ _

theorem setProc_of_ne (s : State) {p q : ℕ} (P : Proc) (h : q ≠ p) : (s.setProc p P).proc q = s.proc q :=
  update_of_ne h _ _

/-! ### What the classes share -/

/-- `RR_init`, and the same function in the other files. -/
def listInit (s : State) : State := { s with runList := [], procNum := 0 }

/-- The function `enqueue` of a class that gives the time slice `slice`. -/
def listEnqueue (slice : ℤ → Proc → ℤ) (p : ℕ) (s : State) : Except Panic State := do
  require ((s.proc p).rq = false) .enqueue
  let s := s.setProc p { s.proc p with timeSlice := slice s.maxTimeSlice (s.proc p), rq := true }
  pure { s with runList := s.runList ++ [p], procNum := s.procNum + 1 }

/-- `RR_dequeue`, and the same function in the other files. -/
def listDequeue (p : ℕ) (s : State) : Except Panic State := do
  require ((s.proc p).rq = true) .dequeue
  let s := { s with runList := s.runList.erase p }
  let s := s.setProc p { s.proc p with rq := false }
  require (0 < s.procNum) .procNum
  pure { s with procNum := s.procNum - 1 }

/-- `RR_pick_next`, and the same function in the other files. -/
def listPickNext (s : State) : Option ℕ := s.runList.head?

/-! ### `default_sched.c` -/

def rrSlice (maxTimeSlice : ℤ) (_ : Proc) : ℤ := maxTimeSlice

def rrInit : State → State := listInit
def rrEnqueue : ℕ → State → Except Panic State := listEnqueue rrSlice
def rrDequeue : ℕ → State → Except Panic State := listDequeue
def rrPickNext : State → Option ℕ := listPickNext

/-- `RR_proc_tick`. -/
def rrProcTick (p : ℕ) (s : State) : State :=
  let timeSlice := if 0 < (s.proc p).timeSlice then (s.proc p).timeSlice - 1 else (s.proc p).timeSlice
  s.setProc p { s.proc p with
    timeSlice := timeSlice
    needResched := if timeSlice ≤ 0 then true else (s.proc p).needResched }

/-! ### `prio_rr_sched.c` -/

/-- `calc_time_slice`.  The cast to `int` makes priorities from `2 ^ 31` on negative. -/
def calcTimeSlice (maxTimeSlice : ℤ) (P : Proc) : ℤ :=
  let weight := P.lab6Priority.toInt
  let weight := if weight ≤ 0 then 1 else weight
  let weight := if weight > MAX_PRIORITY_SLICE then MAX_PRIORITY_SLICE else weight
  maxTimeSlice * weight

def prioRrInit : State → State := listInit
def prioRrEnqueue : ℕ → State → Except Panic State := listEnqueue calcTimeSlice
def prioRrDequeue : ℕ → State → Except Panic State := listDequeue
def prioRrPickNext : State → Option ℕ := listPickNext

/-- `prio_rr_proc_tick`: beside the request to reschedule, a new time slice. -/
def prioRrProcTick (p : ℕ) (s : State) : State :=
  let timeSlice := if 0 < (s.proc p).timeSlice then (s.proc p).timeSlice - 1 else (s.proc p).timeSlice
  s.setProc p { s.proc p with
    timeSlice := if timeSlice ≤ 0 then calcTimeSlice s.maxTimeSlice (s.proc p) else timeSlice
    needResched := if timeSlice ≤ 0 then true else (s.proc p).needResched }

/-! ### `fifo_sched.c` -/

def fifoInit : State → State := listInit
def fifoEnqueue : ℕ → State → Except Panic State := listEnqueue rrSlice
def fifoDequeue : ℕ → State → Except Panic State := listDequeue
def fifoPickNext : State → Option ℕ := listPickNext

/-- `fifo_proc_tick`: no request to reschedule. -/
def fifoProcTick (p : ℕ) (s : State) : State :=
  s.setProc p { s.proc p with timeSlice := s.maxTimeSlice }

end State

/-! ### `sched.c` -/

/-- `struct sched_class`. -/
structure SchedClass where
  init : State → State
  enqueue : ℕ → State → Except Panic State
  dequeue : ℕ → State → Except Panic State
  pickNext : State → Option ℕ
  procTick : ℕ → State → State

def defaultSchedClass : SchedClass :=
  ⟨State.rrInit, State.rrEnqueue, State.rrDequeue, State.rrPickNext, State.rrProcTick⟩

def prioRrSchedClass : SchedClass :=
  ⟨State.prioRrInit, State.prioRrEnqueue, State.prioRrDequeue, State.prioRrPickNext, State.prioRrProcTick⟩

def fifoSchedClass : SchedClass :=
  ⟨State.fifoInit, State.fifoEnqueue, State.fifoDequeue, State.fifoPickNext, State.fifoProcTick⟩

namespace State

variable (c : SchedClass)

/-- `sched_class_enqueue`. -/
def schedClassEnqueue (p : ℕ) (s : State) : Except Panic State :=
  if p ≠ s.idleproc then c.enqueue p s else .ok s

/-- `sched_class_proc_tick`. -/
def schedClassProcTick (p : ℕ) (s : State) : State :=
  if p ≠ s.idleproc then c.procTick p s else s.setProc p { s.proc p with needResched := true }

/-- `sched_init`. -/
def schedInit (s : State) : State := c.init { s with maxTimeSlice := MAX_TIME_SLICE }

/-- `wakeup_proc`. -/
def wakeupProc (p : ℕ) (s : State) : Except Panic State := do
  require ((s.proc p).state ≠ .zombie) .wakeupProc
  if (s.proc p).state ≠ .runnable then
    let s := s.setProc p { s.proc p with state := .runnable }
    if p ≠ s.current then s.schedClassEnqueue c p else pure s
  else pure s

/-- `next->runs++` and `proc_run`. -/
def procRun (next : ℕ) (s : State) : State :=
  { s.setProc next { s.proc next with runs := (s.proc next).runs + 1 } with current := next }

/-- The second half of `schedule`, from `sched_class_pick_next` on. -/
def runNext (s : State) : Except Panic State :=
  match c.pickNext s with
  | some next => do
    let s ← c.dequeue next s
    pure (s.procRun next)
  | none => pure (s.procRun s.idleproc)

/-- `current->need_resched = 0`. -/
def clearResched (s : State) : State :=
  s.setProc s.current { s.proc s.current with needResched := false }

/-- `schedule`. -/
def schedule (s : State) : Except Panic State := do
  let s := s.clearResched
  let s ← if (s.proc s.current).state = .runnable then s.schedClassEnqueue c s.current else pure s
  s.runNext c

/-! ### `trap.c` and `proc.c` -/

/-- The end of `trap` for a process that comes back to user mode, and the loop of `cpu_idle`. -/
def checkResched (s : State) : Except Panic State :=
  if (s.proc s.current).needResched = true then s.schedule c else .ok s

/-- The timer interrupts a process in user mode. -/
def timer (s : State) : Except Panic State := (s.schedClassProcTick c s.current).checkResched c

/-- `alloc_proc`, which gets the address `p`. -/
def allocProc (p : ℕ) (s : State) : State := s.setProc p ⟨true, .uninit, false, 0, false, 0, 1⟩

/-- `do_fork`, as far as scheduling is concerned: the new process is woken up. -/
def doFork (p : ℕ) (s : State) : Except Panic State := (s.allocProc p).wakeupProc c p

/-- The assignment `current->state = …` of `do_wait` and `do_exit`. -/
def setState (state : ProcState) (s : State) : State :=
  s.setProc s.current { s.proc s.current with state := state }

/-- `do_yield`. -/
def doYield (s : State) : State :=
  s.setProc s.current { s.proc s.current with needResched := true }

/-- `lab6_set_priority`. -/
def lab6SetPriority (priority : BitVec 32) (s : State) : State :=
  s.setProc s.current { s.proc s.current with
    lab6Priority := if priority = 0 then 1 else priority }

/-- `kfree(proc)` of `do_wait`. -/
def freeProc (p : ℕ) (s : State) : State := s.setProc p { s.proc p with allocated := false }

/-- `proc_init`, before it creates `init_main`: `idle` runs, and there is no other process. -/
def procInit (idle : ℕ) (s : State) : State :=
  { s with
    proc := fun p => if p = idle then ⟨true, .runnable, false, 0, true, 0, 1⟩ else ⟨false, .uninit, false, 0, false, 0, 1⟩
    current := idle
    idleproc := idle }

end State

end Ucore.RoundRobin
