import Ucore.Lib.Forest
import Ucore.Lib.Transition
import Ucore.Proc.FilesStruct
import Ucore.Proc.Pid

/-!
# Processes (`lab8/kern/process/proc.c`, `lab8/kern/schedule/sched.c`)

The fields of the process structures are functions of their addresses, and the parent, child and
sibling pointers are the links of a tree.  Processes switch only in `schedule`: a function that calls
it ends there, and `place` says where the process goes on when it is picked again.  `atSchedule` holds
while the running process is about to call `schedule`.

What the functions get from outside is an argument: whether memory is left and at which address,
whether a user pointer is valid, which inode a path leads to.  The contents of address spaces and
files, names and trap frames are left out.
-/

namespace Ucore.Proc

open Function Fallible Forest

def E_BAD_PROC : ℤ := 2

def E_INVAL : ℤ := 3

def E_NO_MEM : ℤ := 4

def E_NO_FREE_PROC : ℤ := 5

def E_KILLED : ℤ := 9

def MAX_TIME_SLICE : ℕ := 5

inductive ProcState
  | PROC_UNINIT
  | PROC_SLEEPING
  | PROC_RUNNABLE
  | PROC_ZOMBIE
  deriving DecidableEq, Repr

/-- The values of `wait_state`; `none` is 0. -/
inductive WaitState
  | none
  | WT_CHILD
  | WT_TIMER
  | WT_KSEM
  | WT_KBD
  deriving DecidableEq, Repr

/-- `wait_state & WT_INTERRUPTED`. -/
def WaitState.interrupted : WaitState → Bool
  | .WT_CHILD | .WT_TIMER | .WT_KBD => true
  | .none | .WT_KSEM => false

/-- Where a process goes on. -/
inductive Place
  /-- in none of the functions that call `schedule` and go on after it -/
  | run
  /-- in `do_wait` for the pid -/
  | inWait (pid : ℤ)
  /-- in `do_sleep` -/
  | inSleep
  deriving DecidableEq, Repr

/-- What `do_fork` gets: the addresses of the new structures, unless there is no memory. -/
structure ForkAnswers where
  proc : Option ℕ
  kstack : Bool
  /-- for `copy_mm`, which copies the address space -/
  mm : Option ℕ
  files : Option ℕ

/-- What `do_execve` gets: whether `argc` and `name` are valid, the error of `copy_kargv`, the
descriptor and inode or the error of `sysfile_open`, and the address space or the error of
`load_icode`. -/
structure ExecAnswers where
  argcOk : Bool
  nameOk : Bool
  kargv : Except ℤ Unit
  file : Except ℤ (ℕ × ℕ)
  load : Except ℤ ℕ

structure State where
  /-- the process structures that `kmalloc` has given out -/
  allocated : List ℕ
  state : ℕ → ProcState
  pid : ℕ → ℤ
  needResched : ℕ → Bool
  /-- `parent`, `cptr`, `yptr` and `optr` -/
  family : Links ℕ
  mm : ℕ → Option ℕ
  /-- `flags & PF_EXITING` -/
  exiting : ℕ → Bool
  exitCode : ℕ → ℤ
  waitState : ℕ → WaitState
  timeSlice : ℕ → ℕ
  filesp : ℕ → Option ℕ
  place : ℕ → Place
  procList : List ℕ
  hashList : ℕ → List ℕ
  nrProcess : ℕ
  current : ℕ
  idleproc : ℕ
  initproc : ℕ
  atSchedule : Bool
  lastPid : ℤ
  nextSafe : ℤ
  /-- `rq->run_list`, from its head -/
  runList : List ℕ
  /-- `proc->rq == rq` -/
  rq : ℕ → Bool
  procNum : ℕ
  /-- the processes with timers and the `expires` fields -/
  timerList : List (ℕ × ℕ)
  mmCount : ℕ → ℤ
  tables : Tables

namespace State

/-! ### The scheduler -/

/-- `sched_class_enqueue` with `RR_enqueue`.  The process has its link in no list. -/
def enqueue (p : ℕ) (s : State) : Except Panic State :=
  if p = s.idleproc then .ok s
  else if p ∈ s.runList then .error .enqueue
  else .ok { s with
    runList := s.runList ++ [p]
    timeSlice := if s.timeSlice p = 0 ∨ s.timeSlice p > MAX_TIME_SLICE then
      update s.timeSlice p MAX_TIME_SLICE else s.timeSlice
    rq := update s.rq p true
    procNum := s.procNum + 1 }

/-- `RR_dequeue`. -/
def dequeue (p : ℕ) (s : State) : Except Panic State := do
  require (p ∈ s.runList ∧ s.rq p = true) Panic.dequeue
  .ok { s with runList := s.runList.erase p, procNum := s.procNum - 1 }

/-- `wakeup_proc`. -/
def wakeupProc (p : ℕ) (s : State) : Except Panic State :=
  if s.state p = .PROC_ZOMBIE then .error .wakeupProc
  else if s.state p ≠ .PROC_RUNNABLE then
    let s := { s with
      state := update s.state p .PROC_RUNNABLE
      waitState := update s.waitState p .none }
    if p ≠ s.current then s.enqueue p else .ok s
  else .ok s

/-- `RR_pick_next`, and `RR_dequeue` of what it picks; or `idleproc`. -/
def pickNext (s : State) : Except Panic State :=
  match s.runList with
  | [] => .ok { s with current := s.idleproc }
  | next :: _ => do
    let s ← s.dequeue next
    .ok { s with current := next }

/-- `schedule`. -/
def schedule (s : State) : Except Panic State := do
  let s := { s with needResched := update s.needResched s.current false, atSchedule := false }
  let s ← (if s.state s.current = .PROC_RUNNABLE then s.enqueue s.current else .ok s)
  s.pickNext

/-- `current` waits for the event, and is about to call `schedule`. -/
def block (ws : WaitState) (s : State) : State :=
  { s with
    state := update s.state s.current .PROC_SLEEPING
    waitState := update s.waitState s.current ws
    atSchedule := true }

/-- `sched_class_proc_tick`. -/
def procTick (s : State) : State :=
  let p := s.current
  if p ≠ s.idleproc then
    { s with
      timeSlice := update s.timeSlice p (s.timeSlice p - 1)
      needResched := if s.timeSlice p - 1 = 0 then update s.needResched p true else s.needResched }
  else { s with needResched := update s.needResched p true }

/-- The loop of `add_timer`. -/
def addTimer (p expires : ℕ) : List (ℕ × ℕ) → List (ℕ × ℕ)
  | [] => [(p, expires)]
  | next :: rest =>
    if expires < next.2 then (p, expires) :: (next.1, next.2 - expires) :: rest
    else next :: addTimer p (expires - next.2) rest

/-- The next timer gets the time of the one before. -/
def passExpires (expires : ℕ) : List (ℕ × ℕ) → List (ℕ × ℕ)
  | [] => []
  | next :: rest => (next.1, next.2 + expires) :: rest

/-- `del_timer` of the timer of `p`, if it is in the list. -/
def delTimer (p : ℕ) : List (ℕ × ℕ) → List (ℕ × ℕ)
  | [] => []
  | timer :: rest =>
    if timer.1 = p then passExpires timer.2 rest else timer :: delTimer p rest

/-- The loop of `run_timer_list`. -/
def runTimers : List (ℕ × ℕ) → State → Except Panic State
  | [], s => .ok { s with timerList := [] }
  | timer :: rest, s =>
    if timer.2 = 0 then do
      require (s.waitState timer.1 ≠ .none → (s.waitState timer.1).interrupted) Panic.runTimerList
      let s ← s.wakeupProc timer.1
      runTimers rest s
    else .ok { s with timerList := timer :: rest }

/-- `run_timer_list`. -/
def runTimerList (s : State) : Except Panic State := do
  let s ← (match s.timerList with
    | [] => .ok s
    | timer :: rest => do
      require (timer.2 ≠ 0) Panic.runTimerList
      runTimers ((timer.1, timer.2 - 1) :: rest) s)
  .ok s.procTick

/-! ### Process structures and their lists -/

/-- `alloc_proc`, which gets the address `p`. -/
def allocProc (p : ℕ) (s : State) : State :=
  { s with
    allocated := p :: s.allocated
    state := update s.state p .PROC_UNINIT
    pid := update s.pid p (-1)
    needResched := update s.needResched p false
    family :=
      { parent := update s.family.parent p none
        first := update s.family.first p none
        younger := update s.family.younger p none
        older := update s.family.older p none }
    mm := update s.mm p none
    exiting := update s.exiting p false
    exitCode := update s.exitCode p 0
    waitState := update s.waitState p .none
    timeSlice := update s.timeSlice p 0
    rq := update s.rq p false
    filesp := update s.filesp p none
    place := update s.place p .run }

def kfree (p : ℕ) (s : State) : State := { s with allocated := s.allocated.erase p }

/-- `set_links`. -/
def setLinks (p : ℕ) (s : State) : Except Panic State :=
  match s.family.parent p with
  | none => .error .nullPointer
  | some parent => .ok { s with
      procList := p :: s.procList
      family := s.family.attach p parent
      nrProcess := s.nrProcess + 1 }

/-- `remove_links`. -/
def removeLinks (p : ℕ) (s : State) : State :=
  { s with
    procList := s.procList.erase p
    family := s.family.detach p
    nrProcess := s.nrProcess - 1 }

/-- `hash32(x, HASH_SHIFT)`. -/
def pidHashfn (pid : ℤ) : ℕ := (pid % 2 ^ 32).toNat * 0x9e370001 % 2 ^ 32 / 2 ^ (32 - 10)

def hashProc (p : ℕ) (s : State) : State :=
  let i := pidHashfn (s.pid p)
  { s with hashList := update s.hashList i (p :: s.hashList i) }

def unhashProc (p : ℕ) (s : State) : State :=
  let i := pidHashfn (s.pid p)
  { s with hashList := update s.hashList i ((s.hashList i).erase p) }

/-- `find_proc`. -/
def findProc (pid : ℤ) (s : State) : Option ℕ :=
  if 0 < pid ∧ pid < MAX_PID then (s.hashList (pidHashfn pid)).find? fun p => s.pid p = pid else none

/-! ### `do_fork` -/

/-- `mm_count_inc` of the address space that `p` uses from now on. -/
def useMm (p m : ℕ) (s : State) : State :=
  { s with mm := update s.mm p (some m), mmCount := update s.mmCount m (s.mmCount m + 1) }

/-- `copy_mm` for the new process `p`, if there is memory. -/
def copyMm (cloneVm : Bool) (answer : Option ℕ) (p : ℕ) (s : State) : Option State :=
  match s.mm s.current with
  | none => some s
  | some m =>
    if cloneVm then some (s.useMm p m)
    else answer.map fun m' => { s with mmCount := update s.mmCount m' 0 }.useMm p m'

/-- `files_count_inc` of the table that `p` uses from now on. -/
def useFiles (p t : ℕ) (s : State) : State :=
  { s with filesp := update s.filesp p (some t), tables := s.tables.filesCountInc t }

/-- `copy_files` for the new process `p`, if there is memory. -/
def copyFiles (cloneFs : Bool) (answer : Option ℕ) (p : ℕ) (s : State) :
    Except Panic (Option State) :=
  match s.filesp s.current with
  | none => .error .copyFiles
  | some t =>
    if cloneFs then .ok (some (s.useFiles p t))
    else
      match answer with
      | none => .ok none
      | some t' => do
        let tables ← (s.tables.filesCreate t').dupFiles t' t
        .ok (some ({ s with tables := tables }.useFiles p t'))

/-- `put_files`. -/
def putFiles (p : ℕ) (s : State) : Except Panic State :=
  match s.filesp p with
  | none => .ok s
  | some t => do
    let tables ← s.tables.putFiles t
    .ok { s with tables := tables }

/-- `mm_count_dec` of the address space of `p`, which the last user destroys, and `mm = NULL`. -/
def putMm (p : ℕ) (s : State) : State :=
  match s.mm p with
  | none => s
  | some m => { s with
      mm := update s.mm p none
      mmCount := update s.mmCount m (s.mmCount m - 1) }

/-- The end of `do_fork` for the new process `p`, from `get_pid` on. -/
def startProc (p : ℕ) (s : State) : Except Panic (State × ℤ) :=
  match getPid (s.procList.map s.pid) s.lastPid s.nextSafe with
  | none => .error .endless
  | some (lastPid, nextSafe) => do
    let s := { s with pid := update s.pid p lastPid, lastPid := lastPid, nextSafe := nextSafe }
    let s := s.hashProc p
    let s ← s.setLinks p
    let s ← s.wakeupProc p
    .ok (s, s.pid p)

/-- `do_fork`. -/
def doFork (cloneVm cloneFs : Bool) (answers : ForkAnswers) (s : State) :
    Except Panic (State × ℤ) :=
  if (s.nrProcess : ℤ) ≥ MAX_PROCESS then .ok (s, -E_NO_FREE_PROC)
  else
    match answers.proc with
    | none => .ok (s, -E_NO_MEM)
    | some p =>
      let s := s.allocProc p
      let s := { s with
        family := { s.family with parent := update s.family.parent p (some s.current) }
        waitState := update s.waitState s.current .none }
      if ¬ answers.kstack then .ok (s.kfree p, -E_NO_MEM)
      else
        match s.copyMm cloneVm answers.mm p with
        | none => .ok (s.kfree p, -E_NO_MEM)
        | some s => do
          match ← s.copyFiles cloneFs answers.files p with
          | none =>
            let s ← s.putFiles p
            .ok ((s.putMm p).kfree p, -E_NO_MEM)
          | some s => s.startProc p

/-! ### `do_exit` -/

/-- The loop of `do_exit` that gives the children of `current` to `initproc`, at most `n` times. -/
def reparent : ℕ → State → Except Panic State
  | 0, s => if s.family.first s.current = none then .ok s else .error .endless
  | n + 1, s =>
    match s.family.first s.current with
    | none => .ok s
    | some c => do
      let s := { s with family := s.family.adopt c s.current s.initproc }
      let s ← (if s.state c = .PROC_ZOMBIE ∧ s.waitState s.initproc = .WT_CHILD then
        s.wakeupProc s.initproc else .ok s)
      reparent n s

/-- `do_exit` until it calls `schedule`. -/
def doExit (code : ℤ) (s : State) : Except Panic State := do
  require (s.current ≠ s.idleproc) Panic.idleExit
  require (s.current ≠ s.initproc) Panic.initExit
  let s ← (if (s.mm s.current).isSome then (s.putMm s.current).putFiles s.current else .ok s)
  let s := { s with
    state := update s.state s.current .PROC_ZOMBIE
    exitCode := update s.exitCode s.current code }
  match s.family.parent s.current with
  | none => .error .nullPointer
  | some parent => do
    let s ← (if s.waitState parent = .WT_CHILD then s.wakeupProc parent else .ok s)
    let s ← reparent s.procList.length s
    .ok { s with atSchedule := true }

/-! ### `do_wait`, `do_kill` and `do_sleep` -/

/-- The loop of `do_wait` over the children, at most `n` of them: `haskid`, and the first zombie. -/
def findZombie (s : State) : ℕ → Option ℕ → Bool → Except Panic (Bool × Option ℕ)
  | _, none, haskid => .ok (haskid, none)
  | 0, some _, _ => .error .endless
  | n + 1, some c, _ =>
    if s.state c = .PROC_ZOMBIE then .ok (true, some c) else findZombie s n (s.family.older c) true

/-- One round of `do_wait`: `haskid`, and the zombie found. -/
def waitLook (pid : ℤ) (s : State) : Except Panic (Bool × Option ℕ) :=
  if pid ≠ 0 then
    match s.findProc pid with
    | none => .ok (false, none)
    | some c =>
      if s.family.parent c = some s.current then
        .ok (true, if s.state c = .PROC_ZOMBIE then some c else none)
      else .ok (false, none)
  else s.findZombie s.procList.length (s.family.first s.current) false

/-- `found` of `do_wait`. -/
def reap (c : ℕ) (s : State) : Except Panic State := do
  require (c ≠ s.idleproc ∧ c ≠ s.initproc) Panic.waitKernelProc
  .ok (((s.unhashProc c).removeLinks c).kfree c)

/-- `do_wait` from `repeat` on, until it returns or calls `schedule`. -/
def waitRepeat (pid : ℤ) (s : State) : Except Panic (State × Option ℤ) := do
  let (haskid, found) ← s.waitLook pid
  let s := { s with place := update s.place s.current .run }
  match found with
  | some c => do
    let s ← s.reap c
    .ok (s, some 0)
  | none =>
    if haskid then
      .ok ({ s with place := update s.place s.current (.inWait pid) }.block .WT_CHILD, none)
    else .ok (s, some (-E_BAD_PROC))

/-- `do_wait`; `storeOk` says that `code_store` is `NULL` or valid. -/
def doWait (pid : ℤ) (storeOk : Bool) (s : State) : Except Panic (State × Option ℤ) :=
  if storeOk then s.waitRepeat pid else .ok (s, some (-E_INVAL))

/-- `do_kill`. -/
def doKill (pid : ℤ) (s : State) : Except Panic (State × ℤ) :=
  match s.findProc pid with
  | none => .ok (s, -E_INVAL)
  | some p =>
    if s.exiting p then .ok (s, -E_KILLED)
    else do
      let s := { s with exiting := update s.exiting p true }
      let s ← (if (s.waitState p).interrupted then s.wakeupProc p else .ok s)
      .ok (s, 0)

/-- `do_sleep` until it calls `schedule`. -/
def doSleep (time : ℕ) (s : State) : Except Panic (State × Option ℤ) :=
  if time = 0 then .ok (s, some 0)
  else do
    require (∀ timer ∈ s.timerList, timer.1 ≠ s.current) Panic.addTimer
    .ok ({ s with
      place := update s.place s.current .inSleep
      timerList := addTimer s.current time s.timerList }.block .WT_TIMER, none)

/-- A process goes on after `schedule`. -/
def resume (s : State) : Except Panic (State × Option ℤ) :=
  match s.place s.current with
  | .run => .ok (s, none)
  | .inWait pid =>
    if s.exiting s.current then (s.doExit (-E_KILLED)).map fun s => (s, none)
    else s.waitRepeat pid
  | .inSleep => .ok ({ s with
      place := update s.place s.current .run
      timerList := delTimer s.current s.timerList }, some 0)

/-! ### `do_execve` -/

/-- `do_execve` until it returns or calls `schedule`. -/
def doExecve (answers : ExecAnswers) (s : State) : Except Panic (State × Option ℤ) :=
  if ¬ answers.argcOk ∨ ¬ answers.nameOk then .ok (s, some (-E_INVAL))
  else
    match answers.kargv with
    | .error ret => .ok (s, some ret)
    | .ok _ =>
      match s.filesp s.current with
      | none => .error .nullPointer
      | some t => do
        let tables ← s.tables.filesCloseall t
        let s := { s with tables := tables }
        match answers.file with
        | .error ret => (s.doExit ret).map fun s => (s, none)
        | .ok (fd, node) =>
          let s := { s with tables := s.tables.fdArrayOpen t fd node }
          let s := s.putMm s.current
          -- `load_icode` closes the descriptor on every path
          let s' := { s with tables := s.tables.fdArrayClose t fd }
          match answers.load with
          | .error ret => (s'.doExit ret).map fun s => (s, none)
          | .ok m => .ok ({ s' with mmCount := update s'.mmCount m 0 }.useMm s.current m, some 0)

end State

/-! ### Steps -/

inductive Op
  | fork (cloneVm cloneFs : Bool) (answers : ForkAnswers)
  | exit (code : ℤ)
  | wait (pid : ℤ) (storeOk : Bool)
  | kill (pid : ℤ)
  | sleep (time : ℕ)
  | execve (answers : ExecAnswers)
  | yield
  /-- a descriptor is opened for the inode -/
  | openFile (fd node : ℕ)
  | closeFile (fd : ℕ)
  | chdir (node : ℕ)
  /-- the process waits for a semaphore or the keyboard -/
  | block (ws : WaitState)
  /-- the process goes on after `schedule` -/
  | resume
  | schedule
  /-- the timer interrupt -/
  | tick
  /-- `up` or the keyboard wakes a process -/
  | wakeup (p : ℕ)

namespace State

/-- The table of `current` changes. -/
def withTable (f : ℕ → Tables → Tables) (s : State) : Except Panic (State × Option ℤ) :=
  match s.filesp s.current with
  | none => .error .nullPointer
  | some t => .ok ({ s with tables := f t s.tables }, some 0)

/-- The new state, and the value that a call returns. -/
def step (s : State) : Op → Except Panic (State × Option ℤ)
  | .fork cloneVm cloneFs answers => (s.doFork cloneVm cloneFs answers).map fun r => (r.1, some r.2)
  | .exit code => (s.doExit code).map fun s => (s, none)
  | .wait pid storeOk => s.doWait pid storeOk
  | .kill pid => (s.doKill pid).map fun r => (r.1, some r.2)
  | .sleep time => s.doSleep time
  | .execve answers => s.doExecve answers
  | .yield => .ok ({ s with needResched := update s.needResched s.current true }, some 0)
  | .openFile fd node => s.withTable fun t => Tables.fdArrayOpen t fd node
  | .closeFile fd => s.withTable fun t => Tables.fdArrayClose t fd
  | .chdir node => s.withTable fun t => Tables.setCurdir t node
  | .block ws => .ok (s.block ws, none)
  | .resume => s.resume
  | .schedule => s.schedule.map fun s => (s, none)
  | .tick => s.runTimerList.map fun s => (s, none)
  | .wakeup p => (s.wakeupProc p).map fun s => (s, none)

/-- `current` runs its program. -/
structure Running (s : State) : Prop where
  ne_idle : s.current ≠ s.idleproc
  place : s.place s.current = .run
  atSchedule : s.atSchedule = false

/-- A descriptor of the table of `current` is in range and closed. -/
def FdFree (fd : ℕ) (s : State) : Prop :=
  fd < FILES_STRUCT_NENTRY ∧ ∀ t, s.filesp s.current = some t → (s.tables.files t).node fd = none

/-- `kmalloc` gives out addresses that are not in use. -/
def Fresh (answers : ForkAnswers) (s : State) : Prop :=
  (∀ p, answers.proc = some p → p ∉ s.allocated) ∧
    ∀ t, answers.files = some t → t ∉ s.tables.allocated

/-- When an operation can be next, and what `kmalloc` and the file system guarantee of the
arguments.  `idleproc` only calls `schedule`. -/
def Enabled (s : State) : Op → Prop
  | .fork _ _ answers => s.Running ∧ s.Fresh answers
  | .execve answers => s.Running ∧ ∀ fd node, answers.file = .ok (fd, node) →
      fd < FILES_STRUCT_NENTRY ∧ (2 ≤ fd ∨ s.FdFree fd)
  | .openFile fd _ => s.Running ∧ s.FdFree fd
  | .closeFile fd => s.Running ∧ fd < FILES_STRUCT_NENTRY
  | .block ws => s.Running ∧ (ws = .WT_KSEM ∨ ws = .WT_KBD)
  | .resume => s.place s.current ≠ .run ∧ s.atSchedule = false
  | .schedule => s.atSchedule = true ∨ s.place s.current = .run
  | .tick => True
  | .wakeup p => p ∈ s.allocated ∧ s.state p = .PROC_SLEEPING ∧
      (s.waitState p = .WT_KSEM ∨ s.waitState p = .WT_KBD)
  | _ => s.Running

/-- The kernel takes a step. -/
def Next (s s' : State) : Prop := ∃ op ret, s.Enabled op ∧ s.step op = .ok (s', ret)

/-! ### The start -/

/-- `proc_init` up to `kernel_thread`: `idleproc` runs, at the address `idle` and with the table
`t`. -/
def bootState (idle t : ℕ) (refCount openCount : ℕ → ℤ) : State where
  allocated := [idle]
  state _ := .PROC_RUNNABLE
  pid _ := 0
  needResched _ := true
  family := ⟨fun _ => none, fun _ => none, fun _ => none, fun _ => none⟩
  mm _ := none
  exiting _ := false
  exitCode _ := 0
  waitState _ := .none
  timeSlice _ := 0
  filesp _ := some t
  place _ := .run
  procList := []
  hashList _ := []
  nrProcess := 1
  current := idle
  idleproc := idle
  initproc := idle
  atSchedule := false
  lastPid := MAX_PID
  nextSafe := MAX_PID
  runList := []
  rq _ := false
  procNum := 0
  timerList := []
  mmCount _ := 0
  tables := (Tables.filesCreate t
    ⟨[], fun _ => ⟨none, 0, fun _ => none⟩, refCount, openCount⟩).filesCountInc t

/-- The state after `proc_init`. -/
def Booted (s : State) : Prop :=
  ∃ idle t refCount openCount answers s₁ ret,
    (bootState idle t refCount openCount).Fresh answers ∧
    (bootState idle t refCount openCount).doFork true false answers = .ok (s₁, ret) ∧
    ∃ p, s₁.findProc ret = some p ∧ s = { s₁ with initproc := p }

end State

end Ucore.Proc
