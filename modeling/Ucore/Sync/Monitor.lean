import Mathlib.Logic.Function.Basic
import Ucore.Lib.RefCount
import Ucore.Lib.Transition
import Ucore.Sync.Semaphore

/-!
# Monitors (`lab8/kern/sync/monitor.c`)

A monitor has the semaphores `mutex` and `next` and one for each condition variable; `sem` has them
by name.  The processes enter by `down` of `mutex`, call `cond_wait` and `cond_signal` any number of
times, and leave as the routines of `check_sync.c` do.  A process runs until it blocks in `down`.

`since` and `time` are not in the code: they number the calls of `cond_wait`, to say who has waited
longest.
-/

namespace Ucore.Monitor

open Sync

/-- The semaphores of a monitor with the condition variables `κ`. -/
inductive Place (κ : Type*)
  | mutex
  | next
  | cv (c : κ)
  deriving DecidableEq

/-- Where a process is. -/
inductive Pc (κ : Type*)
  | outside
  /-- running in the monitor -/
  | inside
  /-- in `down` of a semaphore -/
  | downOf (l : Place κ)
  deriving DecidableEq

/-- `monitor_t` and the processes. -/
structure State (π κ : Type*) where
  sem : Place κ → Semaphore π
  nextCount : ℤ
  count : κ → ℤ
  pc : π → Pc κ
  since : π → ℕ
  time : ℕ

variable {π κ : Type*} [DecidableEq π] [DecidableEq κ]

/-- `monitor_init`. -/
def State.init : State π κ where
  sem
    | .mutex => semInit 1
    | .next => semInit 0
    | .cv _ => semInit 0
  nextCount := 0
  count _ := 0
  pc _ := .outside
  since _ := 0
  time := 0

namespace State

def goto (p : π) (pc : Pc κ) (s : State π κ) : State π κ :=
  { s with pc := Function.update s.pc p pc }

/-- `up`. -/
def up (l : Place κ) (s : State π κ) : State π κ :=
  { s with sem := Function.update s.sem l (s.sem l).up }

/-- `down`, until it returns or sleeps. -/
def down (p : π) (l : Place κ) (s : State π κ) : State π κ :=
  { s with sem := Function.update s.sem l ((s.sem l).down p) }

/-- `p` calls `down`; it goes on when it is not in the queue. -/
def callDown (p : π) (l : Place κ) (s : State π κ) : State π κ := (s.down p l).goto p (.downOf l)

omit [DecidableEq π] in
theorem up_sem_of_ne (l l' : Place κ) (h : l' ≠ l) (s : State π κ) :
    (s.up l).sem l' = s.sem l' := by
  unfold up
  exact Function.update_of_ne h _ _

theorem callDown_sem_of_ne (l l' : Place κ) (h : l' ≠ l) (p : π) (s : State π κ) :
    (s.callDown p l).sem l' = s.sem l' := by
  unfold callDown goto down
  exact Function.update_of_ne h _ _

/-- `down(&mtp->mutex)`. -/
def enter (p : π) (s : State π κ) : State π κ := s.callDown p .mutex

/-- The exit code: `up(&mtp->next)` if there are signallers, else `up(&mtp->mutex)`. -/
def release (s : State π κ) : State π κ := if 0 < s.nextCount then s.up .next else s.up .mutex

/-- The end of a routine of the monitor. -/
def leave (p : π) (s : State π κ) : State π κ := s.release.goto p .outside

/-- `cond_signal`, until it is in `down`. -/
def condSignal (p : π) (c : κ) (s : State π κ) : State π κ :=
  if 0 < s.count c then
    let s := { s with nextCount := s.nextCount + 1 }
    (s.up (.cv c)).callDown p .next
  else s

/-- `cond_wait`, until it is in `down`. -/
def condWait (p : π) (c : κ) (s : State π κ) : State π κ :=
  let s := { s with
    count := Function.update s.count c (s.count c + 1)
    since := Function.update s.since p s.time
    time := s.time + 1 }
  s.release.callDown p (.cv c)

/-- A process goes on after `down`: in `cond_signal` and `cond_wait` it decrements the count. -/
def resume (p : π) (l : Place κ) (s : State π κ) : State π κ :=
  let s := s.goto p .inside
  match l with
  | .mutex => s
  | .next => { s with nextCount := s.nextCount - 1 }
  | .cv c => { s with count := Function.update s.count c (s.count c - 1) }

end State

/-- Process `p` runs until it blocks, or comes to the next call. -/
inductive Step (p : π) (s : State π κ) : State π κ → Prop
  | enter (hpc : s.pc p = .outside) : Step p s (s.enter p)
  | condSignal (c : κ) (hpc : s.pc p = .inside) : Step p s (s.condSignal p c)
  | condWait (c : κ) (hpc : s.pc p = .inside) : Step p s (s.condWait p c)
  | leave (hpc : s.pc p = .inside) : Step p s (s.leave p)
  | resume (l : Place κ) (hpc : s.pc p = .downOf l) (hawake : p ∉ (s.sem l).waitQueue) :
      Step p s (s.resume p l)

/-- Some process takes a step. -/
def Next (s s' : State π κ) : Prop := ∃ p, Step p s s'

end Ucore.Monitor
