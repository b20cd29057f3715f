import Ucore.Proc.Runs

/-!
# Runs and the run queue

Between two calls of `schedule` processes only join the queue, at its end; `schedule` takes the first.
The first part says so of each function, whatever the state.

* **`run_queue`**: in every state reached the queue has the processes that could run, once each, with
  the right `proc_num` and time slices; none of its assertions fails; `schedule` picks the process that
  was queued longest, and a process that was woken up before it called `schedule` runs on or is queued.
-/

namespace Ucore.Proc

open Function Relation Fallible Forest State

variable {s s' s₀ : State} {op : Op} {ret : Option ℤ} {p c : ℕ}

/-- The processes `l` join the queue. -/
structure Joins (s s' : State) (l : List ℕ) : Prop where
  runList : s'.runList = s.runList ++ l
  procNum : s'.procNum = s.procNum + l.length
  timeSlice : ∀ p ∈ s.runList, s'.timeSlice p = s.timeSlice p
  fresh : ∀ p ∈ l, 1 ≤ s'.timeSlice p ∧ s'.timeSlice p ≤ MAX_TIME_SLICE

/-- Some processes join the queue. -/
def Enqueues (s s' : State) : Prop := ∃ l, Joins s s' l

/-- No process joins the queue. -/
theorem Enqueues.ofSame (hrun : s'.runList = s.runList) (hnum : s'.procNum = s.procNum)
    (hslice : ∀ p ∈ s.runList, s'.timeSlice p = s.timeSlice p) : Enqueues s s' :=
  ⟨[], by rw [hrun, List.append_nil], hnum, hslice, fun p hp => absurd hp List.not_mem_nil⟩

theorem Enqueues.trans {s'' : State} (h : Enqueues s s') (h' : Enqueues s' s'') : Enqueues s s'' := by
  obtain ⟨l, hl⟩ := h
  obtain ⟨l', hl'⟩ := h'
  have hmem : ∀ p, p ∈ s.runList ∨ p ∈ l → p ∈ s'.runList := fun p hp => by
    rw [hl.runList]
    exact List.mem_append.mpr hp
  refine ⟨l ++ l', ?_, ?_, ?_, ?_⟩
  · rw [hl'.runList, hl.runList, List.append_assoc]
  · rw [hl'.procNum, hl.procNum, List.length_append, Nat.add_assoc]
  · exact fun p hp => (hl'.timeSlice p (hmem p (Or.inl hp))).trans (hl.timeSlice p hp)
  · intro p hp
    rcases List.mem_append.mp hp with hp | hp
    · rw [hl'.timeSlice p (hmem p (Or.inr hp))]
      exact hl.fresh p hp
    · exact hl'.fresh p hp

/-! ### The functions -/

/-- `RR_enqueue` -/
theorem joins_enqueue (hrun : s.enqueue p = .ok s') :
    Joins s s' (if p = s.idleproc then [] else [p]) := by
  rw [State.enqueue] at hrun
  split at hrun
  case isTrue hidle =>
    cases hrun
    rw [if_pos hidle]
    exact ⟨(List.append_nil _).symm, rfl, fun _ _ => rfl, fun p hp => absurd hp List.not_mem_nil⟩
  case isFalse hidle =>
    split at hrun
    case isTrue => cases hrun
    case isFalse hnot =>
      cases hrun
      rw [if_neg hidle]
      have hmax : MAX_TIME_SLICE = 5 := rfl
      refine ⟨rfl, rfl, ?_, ?_⟩
      · intro q hq
        dsimp only
        split
        · exact update_of_ne (ne_of_mem_of_not_mem hq hnot) _ _
        · rfl
      · intro q hq
        rw [List.mem_singleton.mp hq]
        dsimp only
        split
        · rw [update_self]
          decide
        · omega

theorem enqueues_wakeupProc (hrun : s.wakeupProc p = .ok s') : Enqueues s s' := by
  rw [State.wakeupProc] at hrun
  split at hrun
  case isTrue => cases hrun
  case isFalse =>
    split at hrun
    case isFalse =>
      cases hrun
      exact .ofSame rfl rfl fun _ _ => rfl
    case isTrue =>
      dsimp only at hrun
      split at hrun
      case isTrue =>
        obtain ⟨hlist, hnum, hslice, hfresh⟩ := joins_enqueue hrun
        exact ⟨_, hlist, hnum, hslice, hfresh⟩
      case isFalse =>
        cases hrun
        exact .ofSame rfl rfl fun _ _ => rfl

/-- A conditional `wakeup_proc`. -/
theorem enqueues_wakeIf {cond : Prop} [Decidable cond]
    (hrun : (if cond then s.wakeupProc p else .ok s) = .ok s') : Enqueues s s' := by
  split at hrun
  · exact enqueues_wakeupProc hrun
  · cases hrun
    exact .ofSame rfl rfl fun _ _ => rfl

theorem enqueues_reparent {n : ℕ} (hrun : reparent n s = .ok s') : Enqueues s s' := by
  induction n generalizing s with
  | zero =>
    rw [reparent] at hrun
    split at hrun
    · cases hrun
      exact .ofSame rfl rfl fun _ _ => rfl
    · cases hrun
  | succ n ih =>
    rw [reparent] at hrun
    split at hrun
    case h_1 =>
      cases hrun
      exact .ofSame rfl rfl fun _ _ => rfl
    case h_2 c _ =>
      obtain ⟨s₁, hwake, hrest⟩ := bind_eq_ok.mp hrun
      have hadopt : Enqueues s { s with family := s.family.adopt c s.current s.initproc } :=
        .ofSame rfl rfl fun _ _ => rfl
      exact (hadopt.trans (enqueues_wakeIf hwake)).trans (ih hrest)

theorem enqueues_doExit {code : ℤ} (hrun : s.doExit code = .ok s') : Enqueues s s' := by
  obtain ⟨_, -, hrun⟩ := bind_eq_ok.mp hrun
  obtain ⟨_, -, hrun⟩ := bind_eq_ok.mp hrun
  obtain ⟨s₁, hrelease, hrun⟩ := bind_eq_ok.mp hrun
  obtain ⟨mm, mmCount, tables, hrelease', -⟩ := releaseAll_ok s
  cases hrelease.symm.trans hrelease'
  dsimp only at hrun
  split at hrun
  · exact nomatch hrun
  · obtain ⟨s₂, hwake, hrun⟩ := bind_eq_ok.mp hrun
    obtain ⟨s₃, hreparent, hrun⟩ := bind_eq_ok.mp hrun
    cases hrun
    have hwake' := enqueues_wakeIf hwake
    have hreparent' := enqueues_reparent hreparent
    obtain ⟨l, hl⟩ := hwake'.trans hreparent'
    exact ⟨l, hl.runList, hl.procNum, hl.timeSlice, hl.fresh⟩

theorem enqueues_runTimers {timers : List (ℕ × ℕ)} (hrun : runTimers timers s = .ok s') :
    Enqueues s s' := by
  induction timers generalizing s with
  | nil =>
    cases hrun
    exact .ofSame rfl rfl fun _ _ => rfl
  | cons timer rest ih =>
    rw [runTimers] at hrun
    split at hrun
    · obtain ⟨_, -, hrun⟩ := bind_eq_ok.mp hrun
      obtain ⟨s₁, hwake, hrest⟩ := bind_eq_ok.mp hrun
      exact (enqueues_wakeupProc hwake).trans (ih hrest)
    · cases hrun
      exact .ofSame rfl rfl fun _ _ => rfl

/-- `sched_class_proc_tick` for `current`, which is not queued. -/
theorem enqueues_procTick (hcur : s.current ∉ s.runList) : Enqueues s s.procTick := by
  rw [procTick]
  split
  · refine .ofSame rfl rfl fun p hp => ?_
    exact update_of_ne (ne_of_mem_of_not_mem hp hcur) _ _
  · exact .ofSame rfl rfl fun _ _ => rfl

theorem procTick_same (s : State) : s.procTick.current = s.current ∧
    s.procTick.runList = s.runList ∧ s.procTick.timerList = s.timerList ∧
    s.procTick.state = s.state := by
  rw [procTick]
  split
  · exact ⟨rfl, rfl, rfl, rfl⟩
  · exact ⟨rfl, rfl, rfl, rfl⟩

theorem enqueues_doExecve {answers : ExecAnswers} (hrun : s.doExecve answers = .ok (s', ret)) :
    Enqueues s s' := by
  have hexit : ∀ mm mmCount tables (code : ℤ), (({ s with
      mm := mm, mmCount := mmCount, tables := tables } : State).doExit code).map
      (fun s => (s, (none : Option ℤ))) = .ok (s', ret) → Enqueues s s' := by
    intro mm mmCount tables code heq
    obtain ⟨s₁, hexit, heq⟩ := map_eq_ok.mp heq
    cases heq
    obtain ⟨l, hl⟩ := enqueues_doExit hexit
    exact ⟨l, hl.runList, hl.procNum, hl.timeSlice, hl.fresh⟩
  rw [doExecve] at hrun
  split at hrun
  case isTrue =>
    cases hrun
    exact .ofSame rfl rfl fun _ _ => rfl
  split at hrun
  case h_1 =>
    cases hrun
    exact .ofSame rfl rfl fun _ _ => rfl
  split at hrun
  case h_1 => cases hrun
  case h_2 t _ =>
    obtain ⟨tables, -, hrun⟩ := bind_eq_ok.mp hrun
    dsimp only at hrun
    split at hrun
    case h_1 => exact hexit _ _ _ _ hrun
    case h_2 fd node _ =>
      obtain ⟨mm, mmCount, hput, -⟩ := putMm_eq s.current
        { s with tables := tables.fdArrayOpen t fd node }
      rw [hput] at hrun
      split at hrun
      case h_1 => exact hexit _ _ _ _ hrun
      case h_2 =>
        cases hrun
        exact .ofSame rfl rfl fun _ _ => rfl

/-! ### Steps -/

/-- A new process is in no queue. -/
theorem Ok.notQueued (h : Ok s) (hc : c ∉ s.allocated) : c ∉ s.runList := by
  intro hmem
  exact hc ((h.alloc c).mpr (Or.inr ((h.sched.mem c).mp hmem).1))

theorem enqueues_setLinks (hrun : s.setLinks c = .ok s') : Enqueues s s' := by
  rw [setLinks] at hrun
  split at hrun
  · cases hrun
  · cases hrun
    exact .ofSame rfl rfl fun _ _ => rfl

theorem enqueues_startProc {n : ℤ} (hrun : s.startProc c = .ok (s', n)) : Enqueues s s' := by
  rw [startProc] at hrun
  split at hrun
  case h_1 => cases hrun
  case h_2 l m _ =>
    obtain ⟨s₁, hlinks, hrun⟩ := bind_eq_ok.mp hrun
    obtain ⟨s₂, hwake, hrun⟩ := bind_eq_ok.mp hrun
    cases hrun
    have hhash : Enqueues s (({ s with
        pid := update s.pid c l, lastPid := l, nextSafe := m } : State).hashProc c) :=
      .ofSame rfl rfl fun _ _ => rfl
    exact (hhash.trans (enqueues_setLinks hlinks)).trans (enqueues_wakeupProc hwake)

/-- The way out of `do_fork`. -/
theorem enqueues_putFiles (hrun : s.putFiles c = .ok s') : Enqueues s ((s'.putMm c).kfree c) := by
  obtain ⟨mm, mmCount, hmm, -⟩ := putMm_eq c s'
  rw [hmm]
  rw [State.putFiles] at hrun
  split at hrun
  · cases hrun
    exact .ofSame rfl rfl fun _ _ => rfl
  · obtain ⟨tables, -, hrun⟩ := bind_eq_ok.mp hrun
    cases hrun
    exact .ofSame rfl rfl fun _ _ => rfl

/-- `do_fork` for a process that is in no queue. -/
theorem enqueues_doFork {cloneVm cloneFs : Bool} {answers : ForkAnswers} {n : ℤ}
    (hfresh : ∀ c, answers.proc = some c → c ∉ s.runList)
    (hrun : s.doFork cloneVm cloneFs answers = .ok (s', n)) : Enqueues s s' := by
  rw [doFork] at hrun
  split at hrun
  case isTrue =>
    cases hrun
    exact .ofSame rfl rfl fun _ _ => rfl
  split at hrun
  case h_1 =>
    cases hrun
    exact .ofSame rfl rfl fun _ _ => rfl
  case h_2 c hproc =>
    have hslice : ∀ p ∈ s.runList, update s.timeSlice c 0 p = s.timeSlice p := fun p hp =>
      update_of_ne (ne_of_mem_of_not_mem hp (hfresh c hproc)) _ _
    dsimp only at hrun
    split at hrun
    case isTrue =>
      cases hrun
      exact .ofSame rfl rfl hslice
    split at hrun
    case h_1 =>
      cases hrun
      exact .ofSame rfl rfl hslice
    case h_2 s₁ hmm =>
      obtain ⟨mm, mmCount, rfl⟩ := copyMm_cases hmm
      obtain ⟨r, hfiles, hrun⟩ := bind_eq_ok.mp hrun
      rcases copyFiles_cases hfiles with (heq | heq) | heq | ⟨t, tables, -, heq⟩
      · cases heq
      · cases heq
      · cases heq
        obtain ⟨s₂, hput, hrun⟩ := bind_eq_ok.mp hrun
        obtain ⟨l, hl⟩ := enqueues_putFiles hput
        cases hrun
        exact ⟨l, hl.runList, hl.procNum, fun p hp => (hl.timeSlice p hp).trans (hslice p hp), hl.fresh⟩
      · cases heq
        obtain ⟨l, hl⟩ := enqueues_startProc hrun
        exact ⟨l, hl.runList, hl.procNum, fun p hp => (hl.timeSlice p hp).trans (hslice p hp), hl.fresh⟩

theorem enqueues_waitRepeat {pid : ℤ} (hrun : s.waitRepeat pid = .ok (s', ret)) : Enqueues s s' := by
  obtain ⟨⟨haskid, found⟩, -, hrun⟩ := bind_eq_ok.mp hrun
  dsimp only at hrun
  split at hrun
  · obtain ⟨s₁, hreap, hrun⟩ := bind_eq_ok.mp hrun
    obtain ⟨_, -, hreap⟩ := bind_eq_ok.mp hreap
    cases hreap
    cases hrun
    exact .ofSame rfl rfl fun _ _ => rfl
  · split at hrun
    · cases hrun
      exact .ofSame rfl rfl fun _ _ => rfl
    · cases hrun
      exact .ofSame rfl rfl fun _ _ => rfl

/-- **Only `schedule` takes processes from the queue.** -/
theorem enqueues_step (h : Ok s) (hen : s.Enabled op) (hop : op ≠ .schedule)
    (hrun : s.step op = .ok (s', ret)) : Enqueues s s' := by
  cases op with
  | fork cloneVm cloneFs answers =>
    obtain ⟨-, hfresh⟩ : s.Running ∧ s.Fresh answers := hen
    obtain ⟨⟨s₁, n⟩, hfork, heq⟩ := map_eq_ok.mp hrun
    cases heq
    exact enqueues_doFork (fun c hc => h.notQueued (hfresh.1 c hc)) hfork
  | exit code =>
    obtain ⟨s₁, hexit, heq⟩ := map_eq_ok.mp hrun
    cases heq
    exact enqueues_doExit hexit
  | wait pid storeOk =>
    cases storeOk with
    | true => exact enqueues_waitRepeat hrun
    | false =>
      cases hrun
      exact .ofSame rfl rfl fun _ _ => rfl
  | kill pid =>
    obtain ⟨⟨s₁, n⟩, hkill, heq⟩ := map_eq_ok.mp hrun
    cases heq
    rw [doKill] at hkill
    split at hkill
    case h_1 =>
      cases hkill
      exact .ofSame rfl rfl fun _ _ => rfl
    split at hkill
    case isTrue =>
      cases hkill
      exact .ofSame rfl rfl fun _ _ => rfl
    case isFalse =>
      obtain ⟨s₂, hwake, hkill⟩ := bind_eq_ok.mp hkill
      cases hkill
      obtain ⟨l, hl⟩ := enqueues_wakeIf hwake
      exact ⟨l, hl.runList, hl.procNum, hl.timeSlice, hl.fresh⟩
  | sleep time =>
    rcases doSleep_ok h hen time with ⟨-, heq⟩ | ⟨place, timers, -, heq, -⟩
    · cases hrun.symm.trans heq
      exact .ofSame rfl rfl fun _ _ => rfl
    · cases hrun.symm.trans heq
      exact .ofSame rfl rfl fun _ _ => rfl
  | execve answers => exact enqueues_doExecve hrun
  | yield =>
    cases hrun
    exact .ofSame rfl rfl fun _ _ => rfl
  | openFile =>
    obtain ⟨t, -, rfl, -⟩ := withTable_eq hrun
    exact .ofSame rfl rfl fun _ _ => rfl
  | closeFile =>
    obtain ⟨t, -, rfl, -⟩ := withTable_eq hrun
    exact .ofSame rfl rfl fun _ _ => rfl
  | chdir =>
    obtain ⟨t, -, rfl, -⟩ := withTable_eq hrun
    exact .ofSame rfl rfl fun _ _ => rfl
  | block ws =>
    cases hrun
    exact .ofSame rfl rfl fun _ _ => rfl
  | resume =>
    rw [step, resume] at hrun
    split at hrun
    · cases hrun
      exact .ofSame rfl rfl fun _ _ => rfl
    · split at hrun
      · obtain ⟨s₁, hexit, heq⟩ := map_eq_ok.mp hrun
        cases heq
        exact enqueues_doExit hexit
      · exact enqueues_waitRepeat hrun
    · cases hrun
      exact .ofSame rfl rfl fun _ _ => rfl
  | schedule => exact absurd rfl hop
  | tick =>
    obtain ⟨s₁, htick, heq⟩ := map_eq_ok.mp hrun
    cases heq
    obtain ⟨s₂, htimers, heq⟩ := bind_eq_ok.mp htick
    cases heq
    obtain ⟨s₃, htick', hok, -⟩ := runTimerList_ok h
    cases htick.symm.trans htick'
    have hcur : s₂.procTick.current ∉ s₂.procTick.runList := fun hmem =>
      ((hok.sched.mem _).mp hmem).2.2 rfl
    rw [(procTick_same s₂).1, (procTick_same s₂).2.1] at hcur
    refine Enqueues.trans ?_ (enqueues_procTick hcur)
    split at htimers
    · cases htimers
      exact .ofSame rfl rfl fun _ _ => rfl
    · obtain ⟨_, -, htimers⟩ := bind_eq_ok.mp htimers
      exact enqueues_runTimers htimers
  | wakeup p =>
    obtain ⟨s₁, hwake, heq⟩ := map_eq_ok.mp hrun
    cases heq
    exact enqueues_wakeupProc hwake

/-! ### `schedule` -/

/-- What `schedule` enqueues. -/
def State.requeued (s : State) : List ℕ :=
  if s.state s.current = .PROC_RUNNABLE ∧ s.current ≠ s.idleproc then [s.current] else []

/-- `schedule` takes the first process, after `current` has joined the queue. -/
theorem schedule_joins (hrun : s.schedule = .ok s') :
    ∃ s₁, Joins s s₁ s.requeued ∧ s₁.idleproc = s.idleproc ∧ s₁.pickNext = .ok s' := by
  obtain ⟨s₁, henqueue, hpick⟩ := bind_eq_ok.mp hrun
  refine ⟨s₁, ?_, ?_, hpick⟩
  · rw [requeued]
    by_cases hr : s.state s.current = .PROC_RUNNABLE
    · obtain ⟨hlist, hnum, hslice, hfresh⟩ := joins_enqueue ((if_pos hr).symm.trans henqueue)
      have hif : (if s.state s.current = .PROC_RUNNABLE ∧ s.current ≠ s.idleproc then [s.current]
          else []) = if s.current = s.idleproc then [] else [s.current] := by
        by_cases hidle : s.current = s.idleproc
        · rw [if_pos hidle, if_neg fun hand => hand.2 hidle]
        · rw [if_neg hidle, if_pos ⟨hr, hidle⟩]
      rw [hif]
      exact ⟨hlist, hnum, hslice, hfresh⟩
    · cases (if_neg hr).symm.trans henqueue
      rw [if_neg fun hand => hr hand.1]
      exact ⟨(List.append_nil _).symm, rfl, fun _ _ => rfl, fun p hp => absurd hp List.not_mem_nil⟩
  · split at henqueue
    · rw [State.enqueue] at henqueue
      split at henqueue
      · cases henqueue
        rfl
      · split at henqueue
        · cases henqueue
        · cases henqueue
          rfl
    · cases henqueue
      rfl

/-- The process picked, and the rest of the queue. -/
theorem pickNext_cases (hpick : s.pickNext = .ok s') : s'.timeSlice = s.timeSlice ∧
    (s.runList = [] ∧ s'.current = s.idleproc ∧ s'.runList = [] ∧ s'.procNum = s.procNum ∨
      s.runList = s'.current :: s'.runList ∧ s'.procNum = s.procNum - 1) := by
  rw [pickNext] at hpick
  cases hrun : s.runList with
  | nil =>
    rw [hrun] at hpick
    cases hpick
    exact ⟨rfl, .inl ⟨rfl, rfl, rfl, rfl⟩⟩
  | cons next rest =>
    rw [hrun] at hpick
    obtain ⟨s₁, hdequeue, heq⟩ := bind_eq_ok.mp hpick
    obtain ⟨-, -, hdequeue⟩ := bind_eq_ok.mp hdequeue
    cases hdequeue
    cases heq
    dsimp only
    rw [hrun, List.erase_cons_head]
    exact ⟨rfl, .inr ⟨rfl, rfl⟩⟩

/-! ### The invariant -/

/-- `proc_num` and the time slices of the queue. -/
structure Counted (s : State) : Prop where
  procNum : s.procNum = s.runList.length
  timeSlice : ∀ p ∈ s.runList, 1 ≤ s.timeSlice p ∧ s.timeSlice p ≤ MAX_TIME_SLICE

theorem Counted.joins {l : List ℕ} (h : Counted s) (hj : Joins s s' l) : Counted s' := by
  refine ⟨?_, ?_⟩
  · rw [hj.procNum, hj.runList, List.length_append, h.procNum]
  · intro p hp
    rw [hj.runList] at hp
    rcases List.mem_append.mp hp with hp | hp
    · rw [hj.timeSlice p hp]
      exact h.timeSlice p hp
    · exact hj.fresh p hp

theorem Counted.pickNext (h : Counted s) (hpick : s.pickNext = .ok s') : Counted s' := by
  have hnum := h.procNum
  obtain ⟨hslice, hcases⟩ := pickNext_cases hpick
  refine ⟨?_, ?_⟩
  · rcases hcases with ⟨hnil, -, hrest, hsame⟩ | ⟨hcons, hless⟩
    · rw [hsame, hrest, hnum, hnil]
    · rw [hless, hnum, hcons]
      rfl
  · intro p hp
    rw [hslice]
    apply h.timeSlice
    rcases hcases with ⟨-, -, hrest, -⟩ | ⟨hcons, -⟩
    · rw [hrest] at hp
      exact absurd hp List.not_mem_nil
    · rw [hcons]
      exact List.mem_cons_of_mem _ hp

theorem counted_step (hok : Ok s) (h : Counted s) (hn : s.Next s') : Counted s' := by
  obtain ⟨op, ret, hen, hrun⟩ := hn
  by_cases hop : op = .schedule
  · subst hop
    obtain ⟨s₂, hsched, heq⟩ := map_eq_ok.mp hrun
    cases heq
    obtain ⟨s₁, hj, -, hpick⟩ := schedule_joins hsched
    exact (h.joins hj).pickNext hpick
  · obtain ⟨l, hj⟩ := enqueues_step hok hen hop hrun
    exact h.joins hj

theorem State.Booted.counted (h : s.Booted) : Counted s := by
  obtain ⟨idle, t, refCount, openCount, answers, s₁, ret, -, hfork, p, -, rfl⟩ := h
  have hboot : Counted (bootState idle t refCount openCount) :=
    ⟨rfl, fun p hp => absurd hp List.not_mem_nil⟩
  obtain ⟨l, hj⟩ := enqueues_doFork (fun c _ => List.not_mem_nil) hfork
  have h₁ := hboot.joins hj
  exact ⟨h₁.procNum, h₁.timeSlice⟩

/-- The run queue is in order. -/
structure QueueOk (s : State) : Prop where
  nodup : s.runList.Nodup
  mem : ∀ p, p ∈ s.runList ↔ p ∈ s.procList ∧ s.state p = .PROC_RUNNABLE ∧ p ≠ s.current
  idle_notMem : s.idleproc ∉ s.runList
  counted : Counted s

/-! ### Who was queued longest -/

/-- `q` stands before `p`. -/
def Before (q p : ℕ) (l : List ℕ) : Prop := [q, p].Sublist l

/-- Who stands before a process that was queued already, was queued before it. -/
theorem Before.of_append {q : ℕ} {l m : List ℕ} (h : Before q p (l ++ m)) (hp : p ∉ m) :
    Before q p l := by
  rw [Before] at h ⊢
  obtain ⟨l₁, l₂, heq, hl₁, hl₂⟩ := List.sublist_append_iff.mp h
  rcases List.eq_nil_or_concat l₂ with rfl | ⟨l₃, x, rfl⟩
  · rw [heq, List.append_nil]
    exact hl₁
  · have hlast := congrArg List.getLast? heq
    have hx : x = p := by simpa using hlast.symm
    exact absurd (hl₂.subset (by simp [hx])) hp

theorem queue_step (h : Ok s) (hn : s.Next s') :
    ∃ m, (s.runList ++ m).Nodup ∧ s'.runList <:+ s.runList ++ m := by
  have hok := Next.ok h hn
  obtain ⟨op, ret, hen, hrun⟩ := hn
  by_cases hop : op = .schedule
  · subst hop
    obtain ⟨s₂, hsched, heq⟩ := map_eq_ok.mp hrun
    cases heq
    obtain ⟨s₁, hj, -, hpick⟩ := schedule_joins hsched
    refine ⟨s.requeued, ?_, ?_⟩
    · rw [List.nodup_append]
      refine ⟨h.sched.nodup, ?_, ?_⟩
      · rw [requeued]
        split
        · exact List.nodup_singleton _
        · exact List.nodup_nil
      · rintro a ha b hb rfl
        rw [requeued] at hb
        split at hb
        · exact ((h.sched.mem a).mp ha).2.2 (List.mem_singleton.mp hb)
        · exact absurd hb List.not_mem_nil
    · rw [← hj.runList]
      obtain ⟨-, ⟨hnil, -, hrest, -⟩ | ⟨hcons, -⟩⟩ := pickNext_cases hpick
      · rw [hnil, hrest]
      · rw [hcons]
        exact List.suffix_cons _ _
  · obtain ⟨l, hj⟩ := enqueues_step h hen hop hrun
    exact ⟨l, hj.runList ▸ hok.sched.nodup, hj.runList ▸ List.suffix_rfl⟩

/-- Along a run, who stands before `p` was queued whenever `p` was, since `p` joined the queue. -/
theorem before_since {run : ℕ → State} {n k q : ℕ} (hok : ∀ j ≤ n, Ok (run j))
    (hsteps : ∀ j < n, (run j).Next (run (j + 1)))
    (hp : ∀ j, k ≤ j → j ≤ n → p ∈ (run j).runList) (h : Before q p (run n).runList) :
    ∀ j, k ≤ j → j ≤ n → Before q p (run j).runList := by
  intro j hkj hjn
  -- backwards from `n`
  induction hjn using Nat.decreasingInduction with
  | self => exact h
  | of_succ j hjn ih =>
    obtain ⟨m, hnodup, hsuffix⟩ := queue_step (hok j (Nat.le_of_lt hjn)) (hsteps j hjn)
    have hafter : Before q p ((run j).runList ++ m) := (ih (Nat.le_succ_of_le hkj)).trans hsuffix.sublist
    have hmem := hp j hkj (Nat.le_of_lt hjn)
    exact hafter.of_append fun hm => (List.nodup_append.mp hnodup).2.2 p hmem p hm rfl

/-- The process that `schedule` picks was queued longest: whenever another process of the queue was
queued without a break, so was this one. -/
def Longest (run : ℕ → State) (n : ℕ) (q : ℕ) : Prop :=
  ∀ p ∈ (run n).runList, ∀ k, (∀ j, k ≤ j → j ≤ n → p ∈ (run j).runList) →
    ∀ j, k ≤ j → j ≤ n → q ∈ (run j).runList

/-- What `schedule` picks: the process queued longest; if there is none, `current`, if it can run; else
`idleproc`. -/
inductive PicksLongest (run : ℕ → State) (n : ℕ) : ℕ → Prop
  | queued {q : ℕ} (hmem : q ∈ (run n).runList) (h : Longest run n q) : PicksLongest run n q
  | current (hnil : (run n).runList = []) (hr : (run n).state (run n).current = .PROC_RUNNABLE)
      (hne : (run n).current ≠ (run n).idleproc) : PicksLongest run n (run n).current
  | idle (hnone : ∀ p ∈ (run n).procList, (run n).state p ≠ .PROC_RUNNABLE) :
      PicksLongest run n (run n).idleproc

theorem picksLongest {run : ℕ → State} {n : ℕ} (hok : ∀ j ≤ n, Ok (run j))
    (hsteps : ∀ j < n, (run j).Next (run (j + 1))) (hrun : (run n).schedule = .ok s') :
    PicksLongest run n s'.current := by
  obtain ⟨s₁, hj, hidle, hpick⟩ := schedule_joins hrun
  have h := hok n le_rfl
  obtain ⟨-, ⟨hnil, hcur, -, -⟩ | ⟨hcons, -⟩⟩ := pickNext_cases hpick
  · rw [hcur, hidle]
    rw [hj.runList, List.append_eq_nil_iff] at hnil
    refine .idle fun p hp hr => ?_
    by_cases hpc : p = (run n).current
    · have hin : p ∈ (run n).requeued := by
        rw [requeued, if_pos ⟨hpc ▸ hr, hpc ▸ ne_of_mem_of_not_mem hp h.sched.idle_notMem⟩, hpc]
        exact List.mem_singleton_self _
      rw [hnil.2] at hin
      exact absurd hin List.not_mem_nil
    · have hin := (h.sched.mem p).mpr ⟨hp, hr, hpc⟩
      rw [hnil.1] at hin
      exact absurd hin List.not_mem_nil
  · rw [hj.runList] at hcons
    cases hqueue : (run n).runList with
    | nil =>
      rw [hqueue, List.nil_append, requeued] at hcons
      split at hcons
      case isTrue hand =>
        rw [← (List.cons.inj hcons).1]
        exact .current hqueue hand.1 hand.2
      case isFalse => exact nomatch hcons
    | cons q rest =>
      rw [hqueue, List.cons_append] at hcons
      rw [← (List.cons.inj hcons).1]
      refine .queued (by rw [hqueue]; exact List.mem_cons_self) ?_
      intro p hp k hsince j hkj hjn
      rw [hqueue] at hp
      rcases List.mem_cons.mp hp with rfl | hp
      · exact hsince j hkj hjn
      · have hbefore : Before q p (run n).runList := by
          rw [hqueue]
          exact (List.singleton_sublist.mpr hp).cons_cons q
        exact (before_since hok hsteps hsince hbefore j hkj hjn).subset List.mem_cons_self

/-- **The run queue**, along a run of any length. -/
theorem run_queue {run : ℕ → State} {n : ℕ} (hboot : (run 0).Booted)
    (hsteps : ∀ j < n, (run j).Next (run (j + 1))) :
    QueueOk (run n) ∧
      (∀ op, (run n).Enabled op → ∀ e, (run n).step op = .error e →
        e ≠ .enqueue ∧ e ≠ .dequeue ∧ e ≠ .wakeupProc) ∧
      (∃ s', (run n).schedule = .ok s' ∧ PicksLongest run n s'.current ∧
        ∀ p ∈ (run n).procList, (run n).state p = .PROC_RUNNABLE →
          p = s'.current ∨ p ∈ s'.runList) ∧
      ∀ s', (run n).state (run n).current = .PROC_SLEEPING →
        (run n).wakeupProc (run n).current = .ok s' → ∃ s'', s'.schedule = .ok s'' ∧
          ((run n).current = s''.current ∨ (run n).current ∈ s''.runList) := by
  have hinv : ∀ j ≤ n, Ok (run j) ∧ Counted (run j) := by
    intro j hj
    induction j with
    | zero => exact ⟨hboot.ok, hboot.counted⟩
    | succ j ih =>
      obtain ⟨hok, hcount⟩ := ih (Nat.le_of_succ_le hj)
      exact ⟨Next.ok hok (hsteps j hj), counted_step hok hcount (hsteps j hj)⟩
  obtain ⟨h, hcount⟩ := hinv n le_rfl
  refine ⟨⟨h.sched.nodup, h.sched.mem, ?_, hcount⟩, ?_, ?_, ?_⟩
  · exact fun hmem => h.sched.idle_notMem ((h.sched.mem _).mp hmem).1
  · intro op hen e hrun
    rcases step_error h hen hrun with hfiles | ⟨rfl, -⟩
    · refine ⟨?_, ?_, ?_⟩
      · rintro rfl
        exact hfiles
      · rintro rfl
        exact hfiles
      · rintro rfl
        exact hfiles
    · exact ⟨by decide, by decide, by decide⟩
  · obtain ⟨s', hrun, hs⟩ := schedule_ok h.sched
    refine ⟨s', hrun, picksLongest (fun j hj => (hinv j hj).1) hsteps hrun, ?_⟩
    intro p hp hr
    by_cases hpc : p = s'.current
    · exact Or.inl hpc
    · exact Or.inr ((hs.sched.mem p).mpr ⟨hp, hr, hpc⟩)
  · intro s' hsleep hwake
    have hidle : (run n).current ≠ (run n).idleproc := by
      intro heq
      rw [heq, h.sched.idleRunnable] at hsleep
      exact nomatch hsleep
    have hcur := h.sched.known.resolve_left hidle
    have hz : (run n).state (run n).current ≠ .PROC_ZOMBIE := by
      rw [hsleep]
      decide
    have hu : (run n).state (run n).current ≠ .PROC_UNINIT := by
      rw [hsleep]
      decide
    obtain ⟨s₁, hrun₁, hw, hs₁, hr⟩ := wakeupProc_ok h.sched (Or.inr hcur) hz hu
    cases hwake.symm.trans hrun₁
    have hok' := h.wakes hw hs₁
    have hprocs : s'.procList = (run n).procList := by rw [hw.frame]
    obtain ⟨s'', hrun'', hs⟩ := schedule_ok hok'.sched
    refine ⟨s'', hrun'', ?_⟩
    by_cases hpc : (run n).current = s''.current
    · exact Or.inl hpc
    · exact Or.inr ((hs.sched.mem _).mpr ⟨hprocs ▸ hcur, hr, hpc⟩)

/-- `initproc` runs and forks a process. -/
theorem run_queue_two : ∃ (run : ℕ → State) (n : ℕ), QueueOk (run n) ∧ (run n).current = 1 ∧
    (run n).runList = [2] := by
  obtain ⟨s₀, s₁, s₂, hboot, hn₁, hn₂, hcur, hlist⟩ : ∃ s₀ s₁ s₂ : State, s₀.Booted ∧ s₀.Next s₁ ∧
      s₁.Next s₂ ∧ s₂.current = 1 ∧ s₂.runList = [2] := by
    refine ⟨_, _, _, ⟨10, 100, fun _ => 0, fun _ => 0, ⟨some 1, true, none, some 101⟩, _, _, ⟨?_, ?_⟩,
      rfl, 1, rfl, rfl⟩, ⟨.schedule, none, Or.inr rfl, rfl⟩, ⟨.fork false true ⟨some 2, true, none,
        none⟩, some 2, ⟨⟨?_, rfl, rfl⟩, ?_, ?_⟩, rfl⟩, rfl, rfl⟩
    · intro p hp
      cases hp
      decide
    · intro p hp
      cases hp
      decide
    · exact fun heq => nomatch heq
    · intro p hp
      cases hp
      decide
    · exact fun p hp => nomatch hp
  let run : ℕ → State := fun j => match j with
    | 0 => s₀
    | 1 => s₁
    | _ + 2 => s₂
  have hsteps : ∀ j < 2, (run j).Next (run (j + 1)) := by
    intro j hj
    cases j with
    | zero => exact hn₁
    | succ j =>
      cases j with
      | zero => exact hn₂
      | succ j => omega
  exact ⟨run, 2, (run_queue (n := 2) hboot hsteps).1, hcur, hlist⟩

end Ucore.Proc
