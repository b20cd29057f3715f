import Ucore.Proc.Runs

/-!
# `init_main`

`initproc` forks `user_main`, waits until it has no child, and exits.  The other processes do what
they want.

* **`kernel_survives`**: unless a process calls `do_kill` with the pid of `initproc`, `idleproc` does
  not call `do_exit`, and `initproc` only when it is alone.  `kill_stops_kernel` is such a call.
-/

namespace Ucore.Proc

open Function Relation Fallible Forest State

variable {s s' : State} {op : Op} {ret : Option ℤ}

/-- Where `init_main` is: before `kernel_thread`, in the loop, and after it. -/
inductive InitPc
  | starting
  | waiting
  | finishing
  deriving DecidableEq, Repr

/-- The calls of `init_main`.  `vfs_set_bootfs` changes the directory; `fs_cleanup`, like it, may wait
for a semaphore. -/
def InitPc.Allows : InitPc → Op → Prop
  | _, .schedule | _, .tick | _, .wakeup _ => True
  | .starting, .chdir _ | .waiting, .resume => True
  | .starting, .block ws | .finishing, .block ws => ws = .WT_KSEM
  | .starting, .fork cloneVm cloneFs _ => cloneVm = true ∧ cloneFs = false
  | .waiting, .wait pid storeOk => pid = 0 ∧ storeOk = true
  | .finishing, .exit code => code = 0
  | _, _ => False

/-- The test of the loop; `do_wait` may not have returned yet. -/
def InitPc.afterWait : Option ℤ → InitPc
  | none => .waiting
  | some ret => if ret = 0 then .waiting else .finishing

/-- Where `init_main` goes on.  It panics if it cannot create `user_main`. -/
def InitPc.next : InitPc → Op → Option ℤ → Option InitPc
  | .starting, .fork _ _ _, some pid => if pid ≤ 0 then none else some .waiting
  | .waiting, .wait _ _, ret | .waiting, .resume, ret => some (afterWait ret)
  | pc, _, _ => some pc

structure Kernel where
  state : State
  pc : InitPc

namespace Kernel

/-- `initproc` follows its program. -/
def Enabled (k : Kernel) (op : Op) : Prop :=
  k.state.Enabled op ∧ (k.state.current = k.state.initproc → k.pc.Allows op)

/-- A step that `P` admits. -/
def Next (P : Kernel → Op → Prop) (k k' : Kernel) : Prop := ∃ op ret, k.Enabled op ∧ P k op ∧
  k.state.step op = .ok (k'.state, ret) ∧
    (if k.state.current = k.state.initproc then k.pc.next op ret else some k.pc) = some k'.pc

theorem next_mk {P : Kernel → Op → Prop} {pc pc' : InitPc} (op : Op) (ret : Option ℤ)
    (hen : s.Enabled op) (hallow : s.current = s.initproc → pc.Allows op) (hP : P ⟨s, pc⟩ op)
    (hstep : s.step op = .ok (s', ret))
    (hpc : (if s.current = s.initproc then pc.next op ret else some pc) = some pc') :
    Next P ⟨s, pc⟩ ⟨s', pc'⟩ := ⟨op, ret, ⟨hen, hallow⟩, hP, hstep, hpc⟩

/-- No process calls `do_kill` for `initproc`. -/
def Spares (k : Kernel) (op : Op) : Prop := op ≠ .kill (k.state.pid k.state.initproc)

/-- `idleproc` does not exit, and `initproc` not before the user processes. -/
def Survives (k : Kernel) : Prop := ∀ op, k.Enabled op →
  k.state.step op ≠ .error .idleExit ∧ (k.state.step op = .error .initExit →
    ∀ p ∈ k.state.procList, p ≠ k.state.initproc → k.state.state p = .PROC_ZOMBIE)

end Kernel

/-- The invariant of `init_main`. -/
structure InitOk (k : Kernel) : Prop where
  ok : Ok k.state
  notExiting : k.state.exiting k.state.initproc = false
  place : k.state.place k.state.initproc = .run ∨
    k.state.place k.state.initproc = .inWait 0 ∧ k.pc = .waiting
  alone : k.pc = .finishing → k.state.procList = [k.state.initproc]

/-- Where `initproc` is alone, it stays alone unless it forks. -/
theorem Stepped.alone (h : Ok s) (hs : Stepped s op s' ret) (hone : s.procList = [s.initproc])
    (hop : ∀ cloneVm cloneFs answers, op ≠ .fork cloneVm cloneFs answers) :
    s'.procList = [s.initproc] := by
  cases hs.changes with
  | none hsame => exact hsame.trans hone
  | forked cloneVm cloneFs answers heq => exact absurd heq (hop _ _ _)
  | freed pid hwaits hret c hc hpar hz =>
    rw [hone, List.mem_singleton] at hc
    exact absurd (hc ▸ hz) h.init

/-- `do_wait` of `initproc`: where it finds no child, `initproc` is alone. -/
theorem initWait_ok (h : Ok s) (hcur : s.current = s.initproc)
    (hr : s.state s.current = .PROC_RUNNABLE) (hplace : s.place s.current ≠ .inSleep)
    (hrun : s.waitRepeat 0 = .ok (s', ret)) :
    (s'.place s.initproc = .run ∨
      s'.place s.initproc = .inWait 0 ∧ InitPc.afterWait ret = .waiting) ∧
      (InitPc.afterWait ret = .finishing → s'.procList = [s.initproc]) := by
  have hidle : s.current ≠ s.idleproc := hcur ▸ h.init_ne_idle
  obtain ⟨s₁, ret₁, heq, -, hw⟩ := waitRepeat_ok h hidle hr hplace 0
  cases hrun.symm.trans heq
  have hback : update s.place s.current .run s.initproc = .run := by
    rw [hcur, update_self]
  cases hw with
  | freed c _ _ _ _ hf =>
    refine ⟨Or.inl ?_, fun heq => nomatch heq⟩
    rw [hf.frame]
    exact hback
  | asleep place _ hin => exact ⟨Or.inr ⟨hcur ▸ hin, rfl⟩, fun heq => nomatch heq⟩
  | noChild halone =>
    refine ⟨Or.inl hback, fun _ => h.family.elders.alone fun c hc => ?_⟩
    rw [← hcur]
    exact halone rfl c hc

/-- A step of `initproc`. -/
theorem initStep_ok {pc pc' : InitPc} (h : InitOk ⟨s, pc⟩) (hen : s.Enabled op)
    (hallow : pc.Allows op) (hcur : s.current = s.initproc) (hstep : s.step op = .ok (s', ret))
    (hpc : pc.next op ret = some pc') :
    (s'.place s.initproc = .run ∨ s'.place s.initproc = .inWait 0 ∧ pc' = .waiting) ∧
      (pc' = .finishing → s'.procList = [s.initproc]) := by
  have hs : Ok s := h.ok
  obtain ⟨-, hstepped, hk⟩ := step_ok hs hen hstep
  have hplace : ¬ op.Pauses → s'.place s.initproc = s.place s.initproc := fun hpause =>
    (hk.place _ hs.init_mem).resolve_right fun hand => hpause hand.2
  -- the operations that do not go on after `schedule`
  have hstays : ¬ op.Pauses → (∀ cloneVm cloneFs answers, op ≠ .fork cloneVm cloneFs answers) →
      some pc = some pc' →
      (s'.place s.initproc = .run ∨ s'.place s.initproc = .inWait 0 ∧ pc' = .waiting) ∧
        (pc' = .finishing → s'.procList = [s.initproc]) := by
    rintro hpause hfork heq
    cases heq
    refine ⟨?_, fun hfin => hstepped.alone hs (h.alone hfin) hfork⟩
    rw [hplace hpause]
    exact h.place
  have hrun : s.Running → s.place s.current ≠ .inSleep := by
    intro hr
    rw [hr.place]
    decide
  cases pc with
  | starting =>
    cases op with
    | fork cloneVm cloneFs answers =>
      have hplace' : s.place s.initproc = .run :=
        h.place.resolve_right fun hand => by cases hand.2
      obtain ⟨n, rfl⟩ : ∃ n, ret = some n := by
        obtain ⟨r, -, heq⟩ := map_eq_ok.mp hstep
        cases heq
        exact ⟨_, rfl⟩
      have hpc' : (if n ≤ 0 then none else some InitPc.waiting) = some pc' := hpc
      split at hpc'
      case isTrue => cases hpc'
      case isFalse =>
        cases hpc'
        exact ⟨Or.inl ((hplace id).trans hplace'), fun heq => by cases heq⟩
    | chdir => exact hstays id (fun _ _ _ heq => by cases heq) hpc
    | block => exact hstays id (fun _ _ _ heq => by cases heq) hpc
    | schedule => exact hstays id (fun _ _ _ heq => by cases heq) hpc
    | tick => exact hstays id (fun _ _ _ heq => by cases heq) hpc
    | wakeup => exact hstays id (fun _ _ _ heq => by cases heq) hpc
    | _ => exact hallow.elim
  | waiting =>
    cases op with
    | wait pid storeOk =>
      have hr : s.Running := hen
      obtain ⟨rfl, rfl⟩ : pid = 0 ∧ storeOk = true := hallow
      cases hpc
      exact initWait_ok hs hcur (hs.running hr.atSchedule) (hrun hr) hstep
    | resume =>
      obtain ⟨hne, hat⟩ : s.place s.current ≠ .run ∧ s.atSchedule = false := hen
      have hin : s.place s.current = .inWait 0 := by
        rw [hcur] at hne ⊢
        exact (h.place.resolve_left hne).1
      have hno : s.exiting s.current = false := hcur ▸ h.notExiting
      cases hpc
      refine initWait_ok hs hcur (hs.running hat) (by rw [hin]; exact fun heq => by cases heq) ?_
      rw [step, resume, hin] at hstep
      dsimp only at hstep
      rwa [hno, if_neg Bool.false_ne_true] at hstep
    | schedule => exact hstays id (fun _ _ _ heq => by cases heq) hpc
    | tick => exact hstays id (fun _ _ _ heq => by cases heq) hpc
    | wakeup => exact hstays id (fun _ _ _ heq => by cases heq) hpc
    | _ => exact hallow.elim
  | finishing =>
    cases op with
    | exit code => exact hstays id (fun _ _ _ heq => by cases heq) hpc
    | block => exact hstays id (fun _ _ _ heq => by cases heq) hpc
    | schedule => exact hstays id (fun _ _ _ heq => by cases heq) hpc
    | tick => exact hstays id (fun _ _ _ heq => by cases heq) hpc
    | wakeup => exact hstays id (fun _ _ _ heq => by cases heq) hpc
    | _ => exact hallow.elim

theorem Kernel.Next.ok {k k' : Kernel} (h : InitOk k) (hn : Kernel.Next Kernel.Spares k k') :
    InitOk k' := by
  obtain ⟨s, pc⟩ := k
  obtain ⟨s', pc'⟩ := k'
  obtain ⟨op, ret, ⟨hen, hallow⟩, hspares, hstep, hpc⟩ := hn
  have hs : Ok s := h.ok
  obtain ⟨hok, hstepped, hk⟩ := step_ok hs hen hstep
  have hinit : s'.initproc = s.initproc := hk.initproc
  have hexiting : s'.exiting s.initproc = s.exiting s.initproc :=
    (hk.exiting _ hs.init_mem).resolve_right hspares
  obtain ⟨hplace, halone⟩ : (s'.place s.initproc = .run ∨
      s'.place s.initproc = .inWait 0 ∧ pc' = .waiting) ∧
      (pc' = .finishing → s'.procList = [s.initproc]) := by
    by_cases hcur : s.current = s.initproc
    · exact initStep_ok h hen (hallow hcur) hcur hstep ((if_pos hcur).symm.trans hpc)
    · obtain rfl : pc = pc' := Option.some.inj ((if_neg hcur).symm.trans hpc)
      constructor
      · rw [(hk.place _ hs.init_mem).resolve_right fun hand => hcur hand.1.symm]
        exact h.place
      · intro hfin
        have hone : s.procList = [s.initproc] := h.alone hfin
        refine hstepped.alone hs hone ?_
        rintro cloneVm cloneFs answers rfl
        have hr : s.Running := hen.1
        have hmem := hr.mem hs
        rw [hone, List.mem_singleton] at hmem
        exact hcur hmem
  exact ⟨hok, hinit ▸ hexiting.trans h.notExiting, hinit ▸ hplace, hinit ▸ halone⟩

/-- **The processes of the kernel survive**, as long as nobody kills `initproc`. -/
theorem kernel_survives {k₀ k : Kernel} (hboot : k₀.state.Booted) (hpc : k₀.pc = .starting)
    (hrun : ReflTransGen (Kernel.Next Kernel.Spares) k₀ k) : k.Survives := by
  have hinit : InitOk k₀ := by
    obtain ⟨idle, t, refCount, openCount, c, t', tables, l, n, hb⟩ := hboot.boots
    refine ⟨hboot.ok, ?_, Or.inl ?_, fun hfin => nomatch hpc.symm.trans hfin⟩
    · rw [hb.frame]
      rfl
    · rw [hb.frame]
      rfl
  have h := Transition.invariant (P := InitOk) (fun _ _ => Kernel.Next.ok) hrun hinit
  obtain ⟨s, pc⟩ := k
  rintro op ⟨hen, hallow⟩
  constructor
  · intro heq
    rcases step_error h.ok hen heq with hfiles | ⟨he, -⟩
    · exact hfiles
    · exact nomatch he
  · intro heq p hp hne
    rcases step_error h.ok hen heq with hfiles | ⟨-, hcur, hexit⟩
    · exact hfiles.elim
    have hallow := hallow hcur
    have hfin : pc = .finishing := by
      cases op with
      | exit code =>
        cases pc with
        | finishing => rfl
        | starting => exact hallow.elim
        | waiting => exact hallow.elim
      | execve answers => cases pc <;> exact hallow.elim
      | resume =>
        have hexit' : s.exiting s.initproc = true := hcur ▸ hexit
        exact nomatch h.notExiting.symm.trans hexit'
      | _ => exact hexit.elim
    rw [h.alone hfin, List.mem_singleton] at hp
    exact absurd hp hne

set_option maxRecDepth 4000 in
/-- `user_main` runs, and `initproc` waits. -/
theorem kernel_survives_waiting : ∃ k : Kernel, k.Survives ∧ k.state.current = 2 ∧
    k.state.procList = [2, 1] ∧ k.state.state 1 = .PROC_SLEEPING := by
  refine ⟨⟨_, _⟩, @kernel_survives ⟨_, .starting⟩ _ ⟨10, 100, fun _ => 0, fun _ => 0,
    ⟨some 1, true, none, some 101⟩, _, _, ⟨?_, ?_⟩, rfl, 1, rfl, rfl⟩ rfl (.tail (.tail (.tail (.single
      (Kernel.next_mk .schedule none (Or.inr rfl) (fun _ => trivial) ?_ rfl rfl))
      (Kernel.next_mk (.fork true false ⟨some 2, true, none, some 102⟩) (some 2)
        ⟨⟨?_, rfl, rfl⟩, ?_, ?_⟩ (fun _ => ⟨rfl, rfl⟩) ?_ rfl rfl))
      (Kernel.next_mk (.wait 0 true) none ⟨?_, rfl, rfl⟩ (fun _ => ⟨rfl, rfl⟩) ?_ rfl rfl))
      (Kernel.next_mk .schedule none (Or.inl rfl) (fun _ => trivial) ?_ rfl rfl)), rfl, rfl, rfl⟩
  · intro p hp
    cases hp
    decide
  · intro p hp
    cases hp
    decide
  · exact fun heq => nomatch heq
  · exact fun heq => nomatch heq
  · intro p hp
    cases hp
    decide
  · intro p hp
    cases hp
    decide
  · exact fun heq => nomatch heq
  · exact fun heq => nomatch heq
  · exact fun heq => nomatch heq
  · exact fun heq => nomatch heq

set_option maxRecDepth 4000 in
/-- `user_main` kills `initproc`, which waits for it. -/
theorem kill_stops_kernel : ∃ k₀ k : Kernel, k₀.state.Booted ∧ k₀.pc = .starting ∧
    ReflTransGen (Kernel.Next fun _ _ => True) k₀ k ∧ ¬ k.Survives := by
  refine ⟨⟨_, .starting⟩, ⟨_, .waiting⟩, ⟨10, 100, fun _ => 0, fun _ => 0,
    ⟨some 1, true, none, some 101⟩, _, _, ⟨?_, ?_⟩, rfl, 1, rfl, rfl⟩, rfl,
    .tail (.tail (.tail (.tail (.tail (.single
      (Kernel.next_mk .schedule none (Or.inr rfl) (fun _ => trivial) trivial rfl rfl))
      (Kernel.next_mk (.fork true false ⟨some 2, true, none, some 102⟩) (some 2)
        ⟨⟨?_, rfl, rfl⟩, ?_, ?_⟩ (fun _ => ⟨rfl, rfl⟩) trivial rfl rfl))
      (Kernel.next_mk (.wait 0 true) none ⟨?_, rfl, rfl⟩ (fun _ => ⟨rfl, rfl⟩) trivial rfl rfl))
      (Kernel.next_mk .schedule none (Or.inl rfl) (fun _ => trivial) trivial rfl rfl))
      (Kernel.next_mk (.kill 1) (some 0) ⟨?_, rfl, rfl⟩ (fun heq => nomatch heq) trivial rfl rfl))
      (Kernel.next_mk .schedule none (Or.inr rfl) (fun _ => trivial) trivial rfl rfl), ?_⟩
  · intro p hp
    cases hp
    decide
  · intro p hp
    cases hp
    decide
  · exact fun heq => nomatch heq
  · intro p hp
    cases hp
    decide
  · intro p hp
    cases hp
    decide
  · exact fun heq => nomatch heq
  · exact fun heq => nomatch heq
  · intro hsurvives
    have hexit := (hsurvives .resume ⟨⟨(fun heq => nomatch heq), rfl⟩, fun _ => trivial⟩).2 rfl 2
      List.mem_cons_self (fun heq => nomatch heq)
    exact nomatch hexit

end Ucore.Proc
