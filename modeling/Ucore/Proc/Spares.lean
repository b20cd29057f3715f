import Ucore.Proc.Runs

/-!
# Who sleeps for a semaphore

`wakeup_proc` is called in many places: for parents and `initproc` in `do_exit`, by the timers, in
`do_kill`.  Each of these callers first looks at the wait state, so a process that sleeps with `WT_KSEM`
stays asleep (`spares_step`).  The first part says so of each function, whatever the state.
-/

namespace Ucore.Proc

open Function Fallible Forest State

variable {s s' : State} {op : Op} {ret : Option ℤ} {p q c : ℕ}

/-- If `p` sleeps for a semaphore it still does; if it can run it still can. -/
structure Spares (p : ℕ) (s s' : State) : Prop where
  asleep : s.state p = .PROC_SLEEPING → s.waitState p = .WT_KSEM →
    s'.state p = .PROC_SLEEPING ∧ s'.waitState p = .WT_KSEM
  awake : s.state p = .PROC_RUNNABLE → s'.state p = .PROC_RUNNABLE

theorem Spares.ofSame (hstate : s'.state p = s.state p) (hwait : s'.waitState p = s.waitState p) :
    Spares p s s' := by
  refine ⟨fun hs hw => ?_, fun hs => ?_⟩
  · rw [hstate, hwait]
    exact ⟨hs, hw⟩
  · rw [hstate]
    exact hs

theorem Spares.trans {s'' : State} (h : Spares p s s') (h' : Spares p s' s'') : Spares p s s'' := by
  refine ⟨fun hs hw => ?_, fun hs => h'.awake (h.awake hs)⟩
  obtain ⟨hs', hw'⟩ := h.asleep hs hw
  exact h'.asleep hs' hw'

theorem Spares.ne_zombie (h : Spares p s s') (hs : s.state p = .PROC_RUNNABLE ∨
    s.state p = .PROC_SLEEPING ∧ s.waitState p = .WT_KSEM) : s'.state p ≠ .PROC_ZOMBIE := by
  rcases hs with hs | ⟨hs, hw⟩
  · rw [h.awake hs]
    decide
  · rw [(h.asleep hs hw).1]
    decide

/-! ### The functions -/

theorem spares_enqueue (hrun : s.enqueue q = .ok s') : Spares p s s' := by
  rw [State.enqueue] at hrun
  split at hrun
  · cases hrun
    exact .ofSame rfl rfl
  · split at hrun
    · cases hrun
    · cases hrun
      exact .ofSame rfl rfl

/-- `wakeup_proc` of a process that does not wait for a semaphore. -/
theorem spares_wakeupProc (hq : s.waitState q ≠ .WT_KSEM) (hrun : s.wakeupProc q = .ok s') :
    Spares p s s' := by
  rw [State.wakeupProc] at hrun
  split at hrun
  case isTrue => cases hrun
  split at hrun
  case isFalse =>
    cases hrun
    exact .ofSame rfl rfl
  case isTrue hr =>
    have hwake : Spares p s { s with
        state := update s.state q .PROC_RUNNABLE
        waitState := update s.waitState q .none } := by
      by_cases hpq : p = q
      · subst hpq
        exact ⟨fun _ hw => absurd hw hq, fun hs => absurd hs hr⟩
      · exact .ofSame (update_of_ne hpq _ _) (update_of_ne hpq _ _)
    dsimp only at hrun
    split at hrun
    · exact hwake.trans (spares_enqueue hrun)
    · cases hrun
      exact hwake

/-- A `wakeup_proc` under a condition that excludes `WT_KSEM`. -/
theorem spares_wakeIf {cond : Prop} [Decidable cond] (hcond : cond → s.waitState q ≠ .WT_KSEM)
    (hrun : (if cond then s.wakeupProc q else .ok s) = .ok s') : Spares p s s' := by
  split at hrun
  case isTrue h => exact spares_wakeupProc (hcond h) hrun
  case isFalse =>
    cases hrun
    exact .ofSame rfl rfl

theorem ne_ksem_of_child {ws : WaitState} (h : ws = .WT_CHILD) : ws ≠ .WT_KSEM := by
  rw [h]
  decide

theorem ne_ksem_of_interrupted {ws : WaitState} (h : ws.interrupted = true) : ws ≠ .WT_KSEM := by
  rintro rfl
  cases h

theorem spares_reparent {n : ℕ} (hrun : reparent n s = .ok s') : Spares p s s' := by
  induction n generalizing s with
  | zero =>
    rw [reparent] at hrun
    split at hrun
    · cases hrun
      exact .ofSame rfl rfl
    · cases hrun
  | succ n ih =>
    rw [reparent] at hrun
    split at hrun
    case h_1 =>
      cases hrun
      exact .ofSame rfl rfl
    case h_2 c _ =>
      obtain ⟨s₁, hwake, hrest⟩ := bind_eq_ok.mp hrun
      have hadopt : Spares p s { s with family := s.family.adopt c s.current s.initproc } :=
        .ofSame rfl rfl
      have hwake' := spares_wakeIf (p := p) (fun hand => ne_ksem_of_child hand.2) hwake
      exact (hadopt.trans hwake').trans (ih hrest)

theorem spares_doExit (hp : p ≠ s.current) {code : ℤ} (hrun : s.doExit code = .ok s') :
    Spares p s s' := by
  obtain ⟨_, -, hrun⟩ := bind_eq_ok.mp hrun
  obtain ⟨_, -, hrun⟩ := bind_eq_ok.mp hrun
  obtain ⟨s₁, hrelease, hrun⟩ := bind_eq_ok.mp hrun
  obtain ⟨mm, mmCount, tables, hrelease', -⟩ := releaseAll_ok s
  cases hrelease.symm.trans hrelease'
  dsimp only at hrun
  split at hrun
  · exact nomatch hrun
  · obtain ⟨s₂, hwake, hrun⟩ := bind_eq_ok.mp hrun
    obtain ⟨s₃, hreparent, hrun⟩ := bind_eq_ok.mp hrun
    cases hrun
    have hzombie : Spares p s { s with
        mm := mm, mmCount := mmCount, tables := tables
        state := update s.state s.current .PROC_ZOMBIE
        exitCode := update s.exitCode s.current code } := .ofSame (update_of_ne hp _ _) rfl
    have hwake' := hzombie.trans (spares_wakeIf ne_ksem_of_child hwake)
    obtain ⟨hasleep, hawake⟩ := hwake'.trans (spares_reparent hreparent)
    exact ⟨hasleep, hawake⟩

/-- The assertion of `run_timer_list` is about the wait state. -/
theorem spares_runTimers {timers : List (ℕ × ℕ)} (hrun : runTimers timers s = .ok s') :
    Spares p s s' := by
  induction timers generalizing s with
  | nil =>
    cases hrun
    exact .ofSame rfl rfl
  | cons timer rest ih =>
    rw [runTimers] at hrun
    split at hrun
    · obtain ⟨_, hreq, hrun⟩ := bind_eq_ok.mp hrun
      obtain ⟨s₁, hwake, hrest⟩ := bind_eq_ok.mp hrun
      have hassert := require_eq_ok.mp hreq
      have hwait : s.waitState timer.1 ≠ .WT_KSEM := by
        intro hksem
        rw [hksem] at hassert
        cases hassert (by decide)
      exact (spares_wakeupProc hwait hwake).trans (ih hrest)
    · cases hrun
      exact .ofSame rfl rfl

theorem spares_runTimerList (hrun : s.runTimerList = .ok s') : Spares p s s' := by
  obtain ⟨s₁, htimers, heq⟩ := bind_eq_ok.mp hrun
  cases heq
  have htick : Spares p s₁ s₁.procTick := by
    rw [procTick]
    split
    · exact .ofSame rfl rfl
    · exact .ofSame rfl rfl
  refine Spares.trans ?_ htick
  split at htimers
  · cases htimers
    exact .ofSame rfl rfl
  · obtain ⟨_, -, htimers⟩ := bind_eq_ok.mp htimers
    exact spares_runTimers htimers

theorem spares_startProc {n : ℤ} (hc : s.waitState c ≠ .WT_KSEM)
    (hrun : s.startProc c = .ok (s', n)) : Spares p s s' := by
  rw [startProc] at hrun
  split at hrun
  case h_1 => cases hrun
  case h_2 l m _ =>
    obtain ⟨s₁, hlinks, hrun⟩ := bind_eq_ok.mp hrun
    obtain ⟨s₂, hwake, hrun⟩ := bind_eq_ok.mp hrun
    cases hrun
    rw [setLinks] at hlinks
    split at hlinks
    · cases hlinks
    · cases hlinks
      obtain ⟨hasleep, hawake⟩ := spares_wakeupProc (p := p) (by exact hc) hwake
      exact ⟨hasleep, hawake⟩

/-- The way out of `do_fork`. -/
theorem spares_putFiles (hrun : s.putFiles c = .ok s') : Spares p s ((s'.putMm c).kfree c) := by
  obtain ⟨mm, mmCount, hmm, -⟩ := putMm_eq c s'
  rw [hmm]
  rw [State.putFiles] at hrun
  split at hrun
  · cases hrun
    exact .ofSame rfl rfl
  · obtain ⟨tables, -, hrun⟩ := bind_eq_ok.mp hrun
    cases hrun
    exact .ofSame rfl rfl

/-- `do_fork`, which clears the wait states of the new process and of `current`. -/
theorem spares_doFork (hp : p ≠ s.current) {cloneVm cloneFs : Bool} {answers : ForkAnswers} {n : ℤ}
    (hfresh : ∀ c, answers.proc = some c → p ≠ c)
    (hrun : s.doFork cloneVm cloneFs answers = .ok (s', n)) : Spares p s s' := by
  rw [doFork] at hrun
  split at hrun
  case isTrue =>
    cases hrun
    exact .ofSame rfl rfl
  split at hrun
  case h_1 =>
    cases hrun
    exact .ofSame rfl rfl
  case h_2 c hproc =>
    have hpc := hfresh c hproc
    have hstate : update s.state c .PROC_UNINIT p = s.state p := update_of_ne hpc _ _
    have hwait : update (update s.waitState c .none) s.current .none p = s.waitState p :=
      (update_of_ne hp _ _).trans (update_of_ne hpc _ _)
    dsimp only at hrun
    split at hrun
    case isTrue =>
      cases hrun
      exact .ofSame hstate hwait
    split at hrun
    case h_1 =>
      cases hrun
      exact .ofSame hstate hwait
    case h_2 s₁ hmm =>
      obtain ⟨mm, mmCount, rfl⟩ := copyMm_cases hmm
      obtain ⟨r, hfiles, hrun⟩ := bind_eq_ok.mp hrun
      have hnew : ∀ (t : Option ℕ) tables, Spares p s { s.newProc c with
          mm := mm, mmCount := mmCount, filesp := update (s.newProc c).filesp c t
          tables := tables } := fun _ _ => .ofSame hstate hwait
      have hc : (s.newProc c).waitState c ≠ .WT_KSEM := by
        show update (update s.waitState c .none) s.current .none c ≠ _
        by_cases hcur : c = s.current
        · rw [hcur, update_self]
          decide
        · rw [update_of_ne hcur, update_self]
          decide
      rcases copyFiles_cases hfiles with (heq | heq) | heq | ⟨t, tables, -, heq⟩
      · cases heq
      · cases heq
      · cases heq
        obtain ⟨s₂, hput, hrun⟩ := bind_eq_ok.mp hrun
        cases hrun
        have hback : Spares p s { s.newProc c with mm := mm, mmCount := mmCount } :=
          .ofSame hstate hwait
        exact hback.trans (spares_putFiles hput)
      · cases heq
        exact (hnew (some t) tables).trans (spares_startProc hc hrun)

theorem spares_waitRepeat (hp : p ≠ s.current) {pid : ℤ} (hrun : s.waitRepeat pid = .ok (s', ret)) :
    Spares p s s' := by
  obtain ⟨⟨haskid, found⟩, -, hrun⟩ := bind_eq_ok.mp hrun
  dsimp only at hrun
  split at hrun
  · obtain ⟨s₁, hreap, hrun⟩ := bind_eq_ok.mp hrun
    obtain ⟨_, -, hreap⟩ := bind_eq_ok.mp hreap
    cases hreap
    cases hrun
    exact .ofSame rfl rfl
  · split at hrun
    · cases hrun
      exact .ofSame (update_of_ne hp _ _) (update_of_ne hp _ _)
    · cases hrun
      exact .ofSame rfl rfl

theorem spares_doKill {pid : ℤ} {n : ℤ} (hrun : s.doKill pid = .ok (s', n)) : Spares p s s' := by
  rw [doKill] at hrun
  split at hrun
  case h_1 =>
    cases hrun
    exact .ofSame rfl rfl
  case h_2 q _ =>
    split at hrun
    case isTrue =>
      cases hrun
      exact .ofSame rfl rfl
    case isFalse =>
      obtain ⟨s₂, hwake, hrun⟩ := bind_eq_ok.mp hrun
      cases hrun
      obtain ⟨hasleep, hawake⟩ := spares_wakeIf (p := p) ne_ksem_of_interrupted hwake
      exact ⟨hasleep, hawake⟩

theorem spares_doExecve (hp : p ≠ s.current) {answers : ExecAnswers}
    (hrun : s.doExecve answers = .ok (s', ret)) : Spares p s s' := by
  have hexit : ∀ mm mmCount tables (code : ℤ), (({ s with
      mm := mm, mmCount := mmCount, tables := tables } : State).doExit code).map
      (fun s => (s, (none : Option ℤ))) = .ok (s', ret) → Spares p s s' := by
    intro mm mmCount tables code heq
    obtain ⟨s₁, hexit, heq⟩ := map_eq_ok.mp heq
    cases heq
    obtain ⟨hasleep, hawake⟩ := spares_doExit (p := p) (by exact hp) hexit
    exact ⟨hasleep, hawake⟩
  rw [doExecve] at hrun
  split at hrun
  case isTrue =>
    cases hrun
    exact .ofSame rfl rfl
  split at hrun
  case h_1 =>
    cases hrun
    exact .ofSame rfl rfl
  split at hrun
  case h_1 => cases hrun
  case h_2 t _ =>
    obtain ⟨tables, -, hrun⟩ := bind_eq_ok.mp hrun
    dsimp only at hrun
    split at hrun
    case h_1 => exact hexit _ _ _ _ hrun
    case h_2 fd node _ =>
      obtain ⟨mm, mmCount, hput, -⟩ := putMm_eq s.current
        { s with tables := tables.fdArrayOpen t fd node }
      rw [hput] at hrun
      split at hrun
      case h_1 => exact hexit _ _ _ _ hrun
      case h_2 =>
        cases hrun
        exact .ofSame rfl rfl

/-! ### Steps -/

/-- The operation is one of the running process: no interrupt, and no switch. -/
def Op.ByCurrent : Op → Prop
  | .schedule | .tick | .wakeup _ => False
  | _ => True

/-- **Only `up` wakes who sleeps for a semaphore**: every other step spares it. -/
theorem spares_step (h : Ok s) (hen : s.Enabled op) (hp : p ∈ s.procList)
    (hcur : op.ByCurrent → p ≠ s.current) (hwake : ∀ q, op = .wakeup q → s.waitState q ≠ .WT_KSEM)
    (hrun : s.step op = .ok (s', ret)) : Spares p s s' := by
  cases op with
  | fork cloneVm cloneFs answers =>
    obtain ⟨-, hfresh⟩ : s.Running ∧ s.Fresh answers := hen
    obtain ⟨⟨s₁, n⟩, hfork, heq⟩ := map_eq_ok.mp hrun
    cases heq
    refine spares_doFork (hcur trivial) (fun c hc => ?_) hfork
    rintro rfl
    exact hfresh.1 p hc ((h.alloc p).mpr (Or.inr hp))
  | exit code =>
    obtain ⟨s₁, hexit, heq⟩ := map_eq_ok.mp hrun
    cases heq
    exact spares_doExit (hcur trivial) hexit
  | wait pid storeOk =>
    cases storeOk with
    | true => exact spares_waitRepeat (hcur trivial) hrun
    | false =>
      cases hrun
      exact .ofSame rfl rfl
  | kill pid =>
    obtain ⟨⟨s₁, n⟩, hkill, heq⟩ := map_eq_ok.mp hrun
    cases heq
    exact spares_doKill hkill
  | sleep time =>
    have hne := hcur trivial
    rcases doSleep_ok h hen time with ⟨-, heq⟩ | ⟨place, timers, -, heq, -⟩
    · cases hrun.symm.trans heq
      exact .ofSame rfl rfl
    · cases hrun.symm.trans heq
      exact .ofSame (update_of_ne hne _ _) (update_of_ne hne _ _)
  | execve answers => exact spares_doExecve (hcur trivial) hrun
  | yield =>
    cases hrun
    exact .ofSame rfl rfl
  | openFile =>
    obtain ⟨t, -, rfl, -⟩ := withTable_eq hrun
    exact .ofSame rfl rfl
  | closeFile =>
    obtain ⟨t, -, rfl, -⟩ := withTable_eq hrun
    exact .ofSame rfl rfl
  | chdir =>
    obtain ⟨t, -, rfl, -⟩ := withTable_eq hrun
    exact .ofSame rfl rfl
  | block ws =>
    have hne := hcur trivial
    cases hrun
    exact .ofSame (update_of_ne hne _ _) (update_of_ne hne _ _)
  | resume =>
    rw [step, resume] at hrun
    split at hrun
    · cases hrun
      exact .ofSame rfl rfl
    · split at hrun
      · obtain ⟨s₁, hexit, heq⟩ := map_eq_ok.mp hrun
        cases heq
        exact spares_doExit (hcur trivial) hexit
      · exact spares_waitRepeat (hcur trivial) hrun
    · cases hrun
      exact .ofSame rfl rfl
  | schedule =>
    obtain ⟨s₁, hsched, heq⟩ := map_eq_ok.mp hrun
    cases heq
    obtain ⟨s₂, hsched', hs⟩ := schedule_ok h.sched
    cases hsched.symm.trans hsched'
    rw [hs.frame]
    exact .ofSame rfl rfl
  | tick =>
    obtain ⟨s₁, htick, heq⟩ := map_eq_ok.mp hrun
    cases heq
    exact spares_runTimerList htick
  | wakeup q =>
    obtain ⟨s₁, hwakeup, heq⟩ := map_eq_ok.mp hrun
    cases heq
    exact spares_wakeupProc (hwake q rfl) hwakeup

/-- A process that sleeps for a semaphore, or that can run, stays in `proc_list`. -/
theorem mem_step (h : Ok s) (hen : s.Enabled op) (hp : p ∈ s.procList)
    (hz : s.state p ≠ .PROC_ZOMBIE) (hrun : s.step op = .ok (s', ret)) : p ∈ s'.procList := by
  cases (step_ok h hen hrun).stepped.changes with
  | none hsame => exact hsame ▸ hp
  | forked _ _ _ _ _ c _ hlist =>
    rw [hlist]
    exact List.mem_cons_of_mem _ hp
  | freed _ _ _ c _ _ hzombie _ hlist =>
    rw [hlist]
    refine (List.mem_erase_of_ne ?_).mpr hp
    rintro rfl
    exact hz hzombie

end Ucore.Proc
