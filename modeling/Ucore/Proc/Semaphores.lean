import Ucore.Proc.Spares
import Ucore.Sync.Semaphore

/-!
# Semaphores between processes (`lab8/kern/sync/sem.c`, `lab8/kern/sync/wait.c`)

The `wait_t` of a process that sleeps in `__down` is on its kernel stack, so it is named by the process:
`wait w` is the one on the stack of `w`.  `__down` ends where it calls `schedule`; `downOf` holds the
semaphore in the meantime, and `goOn` is the rest.  The other operations are those of the process model,
for processes outside `__down`.

`value` is an `int`, whose overflow is undefined: `__up` has no next state there.
-/

namespace Ucore.Proc

open Function Fallible State Sync

/-- The largest `int`. -/
def INT_MAX : ℤ := 2 ^ 31 - 1

/-- The values of `wakeup_flags`. -/
inductive WakeupFlags
  | WT_INTERRUPTED
  | waitState (ws : WaitState)
  deriving DecidableEq, Repr

/-- `wait_t`.  The link is in the list of a wait queue or in none. -/
structure Wait (σ : Type) where
  proc : ℕ
  wakeupFlags : WakeupFlags
  waitQueue : Option σ
  waitLink : Option σ

/-- The assertions, and the overflow. -/
inductive SemPanic
  /-- one of the process model -/
  | kernel (e : Panic)
  /-- `wait->proc->wait_state == wait_state` in `__up` -/
  | waitState
  | waitQueueAdd
  | waitQueueDel
  /-- `flags == 0` in `down` -/
  | flags
  | overflow
  deriving DecidableEq, Repr

structure Sems (σ : Type) where
  kernel : State
  sem : σ → Semaphore ℕ
  wait : ℕ → Wait σ
  /-- the semaphore for which a process has called `schedule` in `__down` -/
  downOf : ℕ → Option σ

/-- What an observer notes of an operation. -/
inductive Event (σ : Type)
  /-- `up` returns, and has given its token to a process -/
  | up (l : σ) (granted : Option ℕ)
  /-- `down` or `try_down` returns with a token -/
  | took (l : σ) (p : ℕ)
  /-- `try_down` returns without -/
  | failed (l : σ) (p : ℕ)
  /-- `down` puts the process to sleep -/
  | queued (l : σ) (p : ℕ)
  /-- that `down` returns -/
  | returned (l : σ) (p : ℕ)
  | kernel (op : Op)

namespace Sems

variable {σ : Type} [DecidableEq σ]

/-! ### Wait queues -/

/-- `wait_queue_first`. -/
def waitQueueFirst (l : σ) (s : Sems σ) : Option ℕ := (s.sem l).waitQueue.head?

/-- `wait_init`. -/
def waitInit (w p : ℕ) (s : Sems σ) : Sems σ :=
  { s with
    wait := update s.wait w
      { s.wait w with proc := p, wakeupFlags := .WT_INTERRUPTED, waitLink := none } }

/-- `wait_queue_add`. -/
def waitQueueAdd (l : σ) (w : ℕ) (s : Sems σ) : Except SemPanic (Sems σ) := do
  require ((s.wait w).waitLink = none) SemPanic.waitQueueAdd
  .ok { s with
    sem := update s.sem l { s.sem l with waitQueue := (s.sem l).waitQueue ++ [w] }
    wait := update s.wait w { s.wait w with waitQueue := some l, waitLink := some l } }

/-- `wait_queue_del`. -/
def waitQueueDel (l : σ) (w : ℕ) (s : Sems σ) : Except SemPanic (Sems σ) :=
  match (s.wait w).waitLink with
  | none => .error .waitQueueDel
  | some l' => do
    require ((s.wait w).waitQueue = some l) SemPanic.waitQueueDel
    .ok { s with
      sem := update s.sem l' { s.sem l' with waitQueue := (s.sem l').waitQueue.erase w }
      wait := update s.wait w { s.wait w with waitLink := none } }

/-- `wakeup_proc`. -/
def wakeup (p : ℕ) (s : Sems σ) : Except SemPanic (Sems σ) :=
  match s.kernel.wakeupProc p with
  | .error e => .error (.kernel e)
  | .ok kernel => .ok { s with kernel := kernel }

/-- `wakeup_wait`. -/
def wakeupWait (l : σ) (w : ℕ) (flags : WakeupFlags) (del : Bool) (s : Sems σ) :
    Except SemPanic (Sems σ) := do
  let s ← (if del then s.waitQueueDel l w else .ok s)
  let s := { s with wait := update s.wait w { s.wait w with wakeupFlags := flags } }
  s.wakeup (s.wait w).proc

/-- `wait_current_set`, after which `__down` is about to call `schedule`. -/
def waitCurrentSet (l : σ) (ws : WaitState) (s : Sems σ) : Except SemPanic (Sems σ) :=
  let w := s.kernel.current
  let s := s.waitInit w w
  let s := { s with kernel := s.kernel.block ws }
  s.waitQueueAdd l w

/-- `wait_current_del`. -/
def waitCurrentDel (l : σ) (w : ℕ) (s : Sems σ) : Except SemPanic (Sems σ) :=
  if (s.wait w).waitLink ≠ none then s.waitQueueDel l w else .ok s

/-! ### `__up` and `__down` -/

/-- `value` becomes `v`. -/
def setValue (l : σ) (v : ℤ) (s : Sems σ) : Sems σ :=
  { s with sem := update s.sem l { s.sem l with value := v } }

/-- `__up`, and the process that it wakes. -/
def upFor (ws : WaitState) (l : σ) (s : Sems σ) : Except SemPanic (Sems σ × Option ℕ) :=
  match s.waitQueueFirst l with
  | none => do
    require ((s.sem l).value < INT_MAX) SemPanic.overflow
    .ok (s.setValue l ((s.sem l).value + 1), none)
  | some w => do
    require (s.kernel.waitState (s.wait w).proc = ws) SemPanic.waitState
    let s' ← s.wakeupWait l w (.waitState ws) true
    .ok (s', some (s.wait w).proc)

/-- `__down`, and whether it returns; else it has got to `schedule`. -/
def downFor (ws : WaitState) (l : σ) (s : Sems σ) : Except SemPanic (Sems σ × Bool) :=
  if 0 < (s.sem l).value then .ok (s.setValue l ((s.sem l).value - 1), true)
  else do
    let p := s.kernel.current
    let s ← s.waitCurrentSet l ws
    .ok ({ s with downOf := update s.downOf p (some l) }, false)

/-- `__down` from `schedule` on, and what it returns; `none` is 0. -/
def goOnFor (ws : WaitState) (l : σ) (s : Sems σ) :
    Except SemPanic (Sems σ × Option WakeupFlags) := do
  let p := s.kernel.current
  let s ← s.waitCurrentDel l p
  let flags := (s.wait p).wakeupFlags
  .ok ({ s with downOf := update s.downOf p none },
    if flags ≠ .waitState ws then some flags else none)

/-! ### Steps -/

inductive Op (σ : Type)
  | kernel (op : Proc.Op)
  | up (l : σ)
  | down (l : σ)
  | tryDown (l : σ)
  /-- the process goes on in `down` after `schedule` -/
  | goOn (l : σ)

/-- `up`. -/
def up (l : σ) (s : Sems σ) : Except SemPanic (Sems σ × Event σ) := do
  let (s, granted) ← s.upFor .WT_KSEM l
  .ok (s, .up l granted)

/-- `down`, until it returns or calls `schedule`. -/
def down (l : σ) (s : Sems σ) : Except SemPanic (Sems σ × Event σ) := do
  let p := s.kernel.current
  let (s, returns) ← s.downFor .WT_KSEM l
  .ok (s, if returns then .took l p else .queued l p)

/-- `down` from `schedule` on. -/
def goOn (l : σ) (s : Sems σ) : Except SemPanic (Sems σ × Event σ) := do
  let p := s.kernel.current
  let (s, flags) ← s.goOnFor .WT_KSEM l
  require (flags = none) SemPanic.flags
  .ok (s, .returned l p)

/-- `try_down`. -/
def tryDown (l : σ) (s : Sems σ) : Sems σ × Event σ :=
  if 0 < (s.sem l).value then
    (s.setValue l ((s.sem l).value - 1), .took l s.kernel.current)
  else (s, .failed l s.kernel.current)

def step (s : Sems σ) : Op σ → Except SemPanic (Sems σ × Event σ)
  | .kernel op =>
    match s.kernel.step op with
    | .error e => .error (.kernel e)
    | .ok (kernel, _) => .ok ({ s with kernel := kernel }, .kernel op)
  | .up l => s.up l
  | .down l => s.down l
  | .tryDown l => .ok (s.tryDown l)
  | .goOn l => s.goOn l

/-- The operations of the process model next to those of the semaphores.  A process in `__down` is
interrupted, or switches where it calls `schedule`; only `down` and `up` write `WT_KSEM`. -/
def Allows (s : Sems σ) : Proc.Op → Prop
  | .tick => True
  | .wakeup p => s.kernel.waitState p ≠ .WT_KSEM
  | .schedule => s.kernel.atSchedule = true ∨ s.downOf s.kernel.current = none
  | .block ws => s.downOf s.kernel.current = none ∧ ws ≠ .WT_KSEM
  | _ => s.downOf s.kernel.current = none

/-- When an operation can be next. -/
def Enabled (s : Sems σ) : Op σ → Prop
  | .kernel op => s.kernel.Enabled op ∧ s.Allows op
  | .up _ | .down _ | .tryDown _ => s.kernel.Running ∧ s.downOf s.kernel.current = none
  | .goOn l => s.downOf s.kernel.current = some l ∧ s.kernel.atSchedule = false

/-- A step that the observer notes. -/
def Next (s : Sems σ) (e : Event σ) (s' : Sems σ) : Prop :=
  ∃ op, s.Enabled op ∧ s.step op = .ok (s', e)

/-- The processes have started, and `sem_init` has set the values. -/
structure Starts (v₀ : σ → ℤ) (s : Sems σ) : Prop where
  booted : s.kernel.Booted
  sem : ∀ l, s.sem l = semInit (v₀ l)
  downOf : ∀ p, s.downOf p = none

end Sems

end Ucore.Proc
