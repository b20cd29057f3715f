import Mathlib.Data.BitVec
import Mathlib.Logic.Function.Basic
import Ucore.Lib.Fifo

/-!
# The console input device (`lab8/kern/fs/devs/dev_stdin.c`, `kern/sync/wait.c`)

`dev_stdin_write` is called by the interrupt handler and `dev_stdin_read` by the processes.  Both run
with interrupts disabled, so a reader runs until it returns or calls `schedule`; other readers, the
interrupt handler and `do_kill` run while it is there.  The positions `p_rpos` and `p_wpos` grow
without bound.
-/

namespace Ucore.Console

open Fifo

def STDIN_BUFSIZE : ℕ := 4096

def WT_INTERRUPTED : BitVec 32 := 0x80000000

def WT_KBD : BitVec 32 := 0x00000004 ||| WT_INTERRUPTED

/-- A process in `dev_stdin_read` that has called `schedule`, with the `wakeup_flags` of its
`wait_t`. -/
structure Reader where
  ret : ℕ
  len : ℕ
  asleep : Bool
  wakeupFlags : BitVec 32

structure State (π : Type*) where
  stdinBuffer : ℕ → UInt8
  pRpos : ℕ
  pWpos : ℕ
  waitQueue : List π
  reader : π → Option Reader

variable {π : Type*} [DecidableEq π]

/-- `stdin_device_init`. -/
def State.init : State π := ⟨fun _ => 0, 0, 0, [], fun _ => none⟩

namespace State

/-- `wakeup_proc` of a reader. -/
def wakeupProc (p : π) (s : State π) : State π :=
  { s with reader :=
      Function.update s.reader p ((s.reader p).map fun r : Reader => { r with asleep := false }) }

/-- `wakeup_wait` with `del`. -/
def wakeupWait (p : π) (flags : BitVec 32) (s : State π) : State π :=
  let s := { s with
    waitQueue := s.waitQueue.erase p
    reader := Function.update s.reader p
      ((s.reader p).map fun r : Reader => { r with wakeupFlags := flags }) }
  s.wakeupProc p

/-- `wakeup_queue` with `del`. -/
def wakeupQueue (flags : BitVec 32) (s : State π) : State π :=
  s.waitQueue.foldl (fun s p => s.wakeupWait p flags) s

/-- `dev_stdin_write`. -/
def devStdinWrite (c : UInt8) (s : State π) : State π :=
  if c ≠ 0 then
    let s := { s with stdinBuffer := Function.update s.stdinBuffer (s.pWpos % STDIN_BUFSIZE) c }
    let s := if s.pWpos - s.pRpos < STDIN_BUFSIZE then { s with pWpos := s.pWpos + 1 } else s
    s.wakeupQueue WT_KBD
  else s

/-- `wait_current_set(wait_queue, wait, WT_KBD)`. -/
def waitCurrentSet (p : π) (ret len : ℕ) (s : State π) : State π :=
  { s with
    waitQueue := s.waitQueue ++ [p]
    reader := Function.update s.reader p (some ⟨ret, len, true, WT_INTERRUPTED⟩) }

/-- `wait_current_del`. -/
def waitCurrentDel (p : π) (s : State π) : State π := { s with waitQueue := s.waitQueue.erase p }

/-- `dev_stdin_read` returns. -/
def returns (p : π) (s : State π) : State π :=
  { s with reader := Function.update s.reader p none }

omit [DecidableEq π] in
/-- The loop of `dev_stdin_read` over the next `n` characters, as far as they are there. -/
def readLoop : ℕ → State π → List UInt8 × State π
  | 0, s => ([], s)
  | n + 1, s =>
    if s.pRpos < s.pWpos then
      let (cs, s') := readLoop n { s with pRpos := s.pRpos + 1 }
      (s.stdinBuffer (s.pRpos % STDIN_BUFSIZE) :: cs, s')
    else ([], s)

/-- `dev_stdin_read` with `ret` characters read, until it returns or calls `schedule`: the
characters stored in `buf`, and the state. -/
def devStdinRead (p : π) (ret len : ℕ) (s : State π) : List UInt8 × State π :=
  let (cs, s) := s.readLoop (len - ret)
  if ret + cs.length < len then (cs, s.waitCurrentSet p (ret + cs.length) len)
  else (cs, s.returns p)

end State

/-- The interrupt handler or a process takes a step.  `cons_getc` returns 0 when there is no
character; `do_kill` wakes a process in `WT_KBD`. -/
inductive Step (s : State π) : Op UInt8 → State π → Prop
  | write (c : UInt8) (hc : c ≠ 0) : Step s (.put c) (s.devStdinWrite c)
  | none : Step s (.take []) (s.devStdinWrite 0)
  | call (p : π) (len : ℕ) (hp : s.reader p = none) :
      Step s (.take (s.devStdinRead p 0 len).1) (s.devStdinRead p 0 len).2
  | tryAgain (p : π) (r : Reader) (hp : s.reader p = some r) (hawake : r.asleep = false)
      (hflags : r.wakeupFlags = WT_KBD) :
      Step s (.take ((s.waitCurrentDel p).devStdinRead p r.ret r.len).1)
        ((s.waitCurrentDel p).devStdinRead p r.ret r.len).2
  | interrupted (p : π) (r : Reader) (hp : s.reader p = some r) (hawake : r.asleep = false)
      (hflags : r.wakeupFlags ≠ WT_KBD) : Step s (.take []) ((s.waitCurrentDel p).returns p)
  | kill (p : π) : Step s (.take []) (s.wakeupProc p)

end Ucore.Console
