import Ucore.Proc.Fork

/-!
# What a step of the kernel can do

`step_ok` lists it: a process is forked, exits, or is freed by `do_wait`, the table of `current`
changes, or none of these.  The results about runs use the list.
-/

namespace Ucore.Proc

open Function Fallible Forest State

variable {s s' : State} {op : Op}

/-- `idleproc`, or a process that was forked and not freed. -/
def State.Known (s : State) (p : ℕ) : Prop := p = s.idleproc ∨ p ∈ s.procList

/-- The step runs the loop of `do_wait` for the pid. -/
def State.Waits (s : State) (op : Op) (pid : ℤ) : Prop :=
  op = .wait pid true ∨ op = .resume ∧ s.place s.current = .inWait pid

/-- No process comes or goes, or becomes a zombie, and the tables of files stay. -/
structure Quiet (s s' : State) : Prop where
  procList : s'.procList = s.procList
  parent : ∀ p ∈ s.procList, s'.family.parent p = s.family.parent p
  tables : s'.tables = s.tables
  filesp : ∀ p, s.Known p → s'.filesp p = s.filesp p
  zombie : ∀ p, s.Known p → (s'.state p = .PROC_ZOMBIE ↔ s.state p = .PROC_ZOMBIE)

/-- Other fields change. -/
theorem Quiet.ofSame (hprocs : s'.procList = s.procList) (hfamily : s'.family = s.family)
    (htables : s'.tables = s.tables) (hfilesp : s'.filesp = s.filesp) (hstate : s'.state = s.state) :
    Quiet s s' := by
  refine ⟨hprocs, fun p _ => ?_, htables, fun p _ => ?_, fun p _ => ?_⟩
  · rw [hfamily]
  · rw [hfilesp]
  · rw [hstate]

theorem Wakes.quiet (h : Wakes s s') : Quiet s s' := by
  refine ⟨?_, ?_, ?_, ?_, fun p _ => h.zombie⟩
  · rw [h.frame]
  · intro p _
    rw [h.frame]
  · rw [h.frame]
  · intro p _
    rw [h.frame]

/-- `current` waits: it was no zombie. -/
theorem quiet_block (hr : s.state s.current ≠ .PROC_ZOMBIE) (place : ℕ → Place)
    (timers : List (ℕ × ℕ)) (ws : WaitState) :
    Quiet s ({ s with place := place, timerList := timers }.block ws) := by
  refine ⟨rfl, fun _ _ => rfl, rfl, fun _ _ => rfl, ?_⟩
  intro p _
  show update s.state s.current .PROC_SLEEPING p = _ ↔ _
  by_cases hp : p = s.current
  · rw [hp, update_self]
    exact iff_of_false (by decide) hr
  · rw [update_of_ne hp]

/-- The table of `current` after the step. -/
inductive TableStep (s : State) : Op → Tables → Prop
  | openFile {fd node t : ℕ} (ht : s.filesp s.current = some t) :
      TableStep s (.openFile fd node) (s.tables.fdArrayOpen t fd node)
  | closeFile {fd t : ℕ} (ht : s.filesp s.current = some t) :
      TableStep s (.closeFile fd) (s.tables.fdArrayClose t fd)
  | chdir {node t : ℕ} (ht : s.filesp s.current = some t) :
      TableStep s (.chdir node) (s.tables.setCurdir t node)
  | execve {answers : ExecAnswers} {fd node t : ℕ} {tables : Tables}
      (ht : s.filesp s.current = some t) (hclose : s.tables.filesCloseall t = .ok tables)
      (hfile : answers.file = .ok (fd, node)) :
      TableStep s (.execve answers) ((tables.fdArrayOpen t fd node).fdArrayClose t fd)

/-- The address spaces and the tables when the step calls `do_exit`. -/
inductive ExitStep (s : State) : Op → (ℕ → Option ℕ) → Tables → Prop
  | exit (code : ℤ) : ExitStep s (.exit code) s.mm s.tables
  | killed {pid : ℤ} (hplace : s.place s.current = .inWait pid) (hexit : s.exiting s.current = true) :
      ExitStep s .resume s.mm s.tables
  | noFile {answers : ExecAnswers} {t : ℕ} {tables : Tables} {e : ℤ}
      (hargs : answers.argcOk = true ∧ answers.nameOk = true ∧ answers.kargv = .ok ())
      (ht : s.filesp s.current = some t) (hclose : s.tables.filesCloseall t = .ok tables)
      (hfile : answers.file = .error e) : ExitStep s (.execve answers) s.mm tables
  | noLoad {answers : ExecAnswers} {t fd node : ℕ} {tables : Tables} {e : ℤ} {mm : ℕ → Option ℕ}
      (hargs : answers.argcOk = true ∧ answers.nameOk = true ∧ answers.kargv = .ok ())
      (ht : s.filesp s.current = some t) (hclose : s.tables.filesCloseall t = .ok tables)
      (hfile : answers.file = .ok (fd, node)) (hload : answers.load = .error e)
      (hmm : mm s.current = none) : ExitStep s (.execve answers) mm
        ((tables.fdArrayOpen t fd node).fdArrayClose t fd)

/-- What a step does. -/
inductive Stepped (s : State) (op : Op) : State → Option ℤ → Prop
  | quiet {s' : State} {ret : Option ℤ} (h : Quiet s s')
      (hret : ∀ pid, s.Waits op pid → ret ≠ some 0) : Stepped s op s' ret
  | tables (mm : ℕ → Option ℕ) (mmCount : ℕ → ℤ) {tables : Tables} (ht : TableStep s op tables) :
      Stepped s op { s with mm := mm, mmCount := mmCount, tables := tables } (some 0)
  | forked {cloneVm cloneFs : Bool} {answers : ForkAnswers} {s' : State} {n : ℤ}
      (hop : op = .fork cloneVm cloneFs answers) (c : ℕ) (hproc : answers.proc = some c)
      (hc : ¬ s.Known c) (mm : ℕ → Option ℕ) (mmCount : ℕ → ℤ) (t : ℕ) (tables : Tables)
      (ht : GetsTable cloneFs answers.files s t tables) (hstart : Starts c { s.newProc c with
        mm := mm, mmCount := mmCount, filesp := update (s.newProc c).filesp c (some t)
        tables := tables } s') (hn : 0 < n) : Stepped s op s' (some n)
  | exited {mm : ℕ → Option ℕ} {mmCount : ℕ → ℤ} {tables : Tables} {s' : State}
      (h : ExitStep s op mm tables)
      (hexit : Exits { s with mm := mm, mmCount := mmCount, tables := tables } s')
      (hinit : s.current ≠ s.initproc) : Stepped s op s' none
  | freed {s' : State} {pid : ℤ} (hwaits : s.Waits op pid) (c : ℕ) (hc : c ∈ s.procList)
      (hpar : s.family.parent c = some s.current) (hz : s.state c = .PROC_ZOMBIE)
      (hacc : Accepts pid (s.pid c))
      (hf : Frees c { s with place := update s.place s.current .run } s') : Stepped s op s' (some 0)

/-- The operation is one of the calls that may go on after `schedule`. -/
def Op.Pauses : Op → Prop
  | .wait _ _ | .sleep _ | .resume => True
  | _ => False

/-- The operation changes the list of timers. -/
def State.UsesTimers (s : State) : Op → Prop
  | .sleep _ | .tick => True
  | .resume => s.place s.current = .inSleep
  | _ => False

/-- `idleproc` and `initproc` stay, and only `do_kill` sets `PF_EXITING`. -/
structure Keeps (s : State) (op : Op) (s' : State) : Prop where
  idleproc : s'.idleproc = s.idleproc
  initproc : s'.initproc = s.initproc
  exiting : ∀ p ∈ s.procList, s'.exiting p = s.exiting p ∨ op = .kill (s.pid p)
  place : ∀ p ∈ s.procList, s'.place p = s.place p ∨ p = s.current ∧ op.Pauses
  timerList : s'.timerList = s.timerList ∨ s.UsesTimers op

/-- The step is as listed. -/
structure StepOk (s : State) (op : Op) (s' : State) (ret : Option ℤ) : Prop where
  ok : Ok s'
  stepped : Stepped s op s' ret
  keeps : Keeps s op s'

variable {ret : Option ℤ} {pid : ℤ}

/-! ### The calls -/

/-- `do_exit` panics for the processes of the kernel. -/
theorem doExit_init {code : ℤ} (hrun : s.doExit code = .ok s') : s.current ≠ s.initproc := by
  obtain ⟨_, -, hrest⟩ := bind_eq_ok.mp hrun
  obtain ⟨_, hreq, -⟩ := bind_eq_ok.mp hrest
  exact require_eq_ok.mp hreq

/-- `do_exit` after the fields that it does not need have changed. -/
theorem stepOk_exit (h : Ok s) (hidle : s.current ≠ s.idleproc)
    (hr : s.state s.current = .PROC_RUNNABLE) (hplace : s.place s.current ≠ .inSleep)
    {mm : ℕ → Option ℕ} {mmCount : ℕ → ℤ} {tables : Tables} (hs : ExitStep s op mm tables) {code : ℤ}
    (hrun : (({ s with mm := mm, mmCount := mmCount, tables := tables } : State).doExit code).map
      (fun s => (s, none)) = .ok (s', ret)) : StepOk s op s' ret := by
  obtain ⟨s₁, hexit, heq⟩ := map_eq_ok.mp hrun
  obtain ⟨rfl, rfl⟩ := Prod.mk.inj heq
  have hinit := doExit_init hexit
  obtain ⟨s₂, hrun₂, hok, hexits⟩ := doExit_ok (h.ofSame s.needResched s.exiting mm s.filesp s.exitCode
    mmCount s.timeSlice s.procNum tables) hidle hinit hr hplace code
  cases hexit.symm.trans hrun₂
  refine ⟨hok, .exited hs hexits hinit, ?_, ?_, ?_, ?_, Or.inl ?_⟩
  · rw [hexits.frame]
  · rw [hexits.frame]
  · intro p _
    rw [hexits.frame]
    exact Or.inl rfl
  · intro p _
    rw [hexits.frame]
    exact Or.inl rfl
  · rw [hexits.frame]

/-- `do_wait` -/
theorem stepOk_wait (h : Ok s) (hidle : s.current ≠ s.idleproc)
    (hr : s.state s.current = .PROC_RUNNABLE) (hplace : s.place s.current ≠ .inSleep)
    (hwaits : s.Waits op pid) (hrun : s.waitRepeat pid = .ok (s', ret)) : StepOk s op s' ret := by
  obtain ⟨s₁, ret₁, hrun₁, hok, hw⟩ := waitRepeat_ok h hidle hr hplace pid
  cases hrun.symm.trans hrun₁
  have hz : s.state s.current ≠ .PROC_ZOMBIE := by
    rw [hr]
    decide
  refine ⟨hok, ?_, ?_⟩
  · cases hw with
    | freed c hc hpar hz hacc hf => exact .freed hwaits c hc hpar hz hacc hf
    | asleep place => exact .quiet (quiet_block hz place s.timerList _) fun _ _ heq => nomatch heq
    | noChild => exact .quiet (.ofSame rfl rfl rfl rfl rfl) fun _ _ heq => nomatch heq
  · have hpauses : op.Pauses := by
      rcases hwaits with rfl | ⟨rfl, -⟩
      · trivial
      · trivial
    have hmoves : ∀ place : ℕ → Place, (∀ p, p ≠ s.current → place p = s.place p) →
        ∀ p ∈ s.procList, place p = s.place p ∨ p = s.current ∧ op.Pauses := by
      intro place hother p _
      by_cases hp : p = s.current
      · exact Or.inr ⟨hp, hpauses⟩
      · exact Or.inl (hother p hp)
    have hback : ∀ p, p ≠ s.current → update s.place s.current .run p = s.place p := fun p hp =>
      update_of_ne hp _ _
    cases hw with
    | freed c hc hpar hz hacc hf =>
      refine ⟨?_, ?_, fun p _ => Or.inl ?_, ?_, Or.inl ?_⟩
      · rw [hf.frame]
      · rw [hf.frame]
      · rw [hf.frame]
      · rw [hf.frame]
        exact hmoves _ hback
      · rw [hf.frame]
    | asleep place hother => exact ⟨rfl, rfl, fun _ _ => Or.inl rfl, hmoves place hother, Or.inl rfl⟩
    | noChild => exact ⟨rfl, rfl, fun _ _ => Or.inl rfl, hmoves _ hback, Or.inl rfl⟩

/-- `do_fork` -/
theorem stepOk_fork (h : Ok s) (hr : s.Running) {cloneVm cloneFs : Bool} {answers : ForkAnswers}
    (hfresh : s.Fresh answers) (hrun : s.step (.fork cloneVm cloneFs answers) = .ok (s', ret)) :
    StepOk s (.fork cloneVm cloneFs answers) s' ret := by
  obtain ⟨⟨s₁, n⟩, hfork, heq⟩ := map_eq_ok.mp hrun
  obtain ⟨rfl, rfl⟩ := Prod.mk.inj heq
  obtain ⟨hok, hforked⟩ := doFork_ok h (hr.mem h) (h.running hr.atSchedule) hfresh hfork
  have hnowait : ∀ pid, ¬ s.Waits (.fork cloneVm cloneFs answers) pid := by
    rintro pid (heq | ⟨heq, -⟩)
    · exact nomatch heq
    · exact nomatch heq
  have hfresh' : ∀ c, answers.proc = some c → ¬ s.Known c := fun c hc hmem =>
    hfresh.1 c hc ((h.alloc c).mpr hmem)
  refine ⟨hok, ?_, ?_⟩
  · cases hforked with
    | refused => exact .quiet (.ofSame rfl rfl rfl rfl rfl) fun pid hw => absurd hw (hnowait pid)
    | failed c hproc mm mmCount =>
      have hne : ∀ p, s.Known p → p ≠ c := fun p hp heq => hfresh' c hproc (heq ▸ hp)
      refine .quiet ⟨rfl, ?_, rfl, ?_, ?_⟩ fun pid hw => absurd hw (hnowait pid)
      · intro p hp
        have hpc := hne p (Or.inr hp)
        exact (update_of_ne hpc _ _).trans (update_of_ne hpc _ _)
      · exact fun p hp => update_of_ne (hne p hp) _ _
      · intro p hp
        show update s.state c .PROC_UNINIT p = _ ↔ _
        rw [update_of_ne (hne p hp)]
    | started c hproc mm mmCount t tables ht hstart hn =>
      exact .forked rfl c hproc (hfresh' c hproc) mm mmCount t tables ht hstart hn
  · have hne : ∀ c, answers.proc = some c → ∀ p ∈ s.procList, p ≠ c := fun c hproc p hp heq =>
      hfresh' c hproc (heq ▸ Or.inr hp)
    cases hforked with
    | refused => exact ⟨rfl, rfl, fun _ _ => Or.inl rfl, fun _ _ => Or.inl rfl, Or.inl rfl⟩
    | failed c hproc =>
      exact ⟨rfl, rfl, fun p hp => Or.inl (update_of_ne (hne c hproc p hp) _ _),
        fun p hp => Or.inl (update_of_ne (hne c hproc p hp) _ _), Or.inl rfl⟩
    | started c hproc mm mmCount t tables ht hstart =>
      refine ⟨?_, ?_, fun p hp => Or.inl ?_, fun p hp => Or.inl ?_, Or.inl ?_⟩
      · rw [hstart.frame]
        rfl
      · rw [hstart.frame]
        rfl
      · rw [hstart.frame]
        exact update_of_ne (hne c hproc p hp) _ _
      · rw [hstart.frame]
        exact update_of_ne (hne c hproc p hp) _ _
      · rw [hstart.frame]
        rfl

/-- `do_execve` -/
theorem stepOk_execve (h : Ok s) (hr : s.Running) {answers : ExecAnswers}
    (hrun : s.doExecve answers = .ok (s', ret)) : StepOk s (.execve answers) s' ret := by
  have hnowait : ∀ pid, ¬ s.Waits (.execve answers) pid := by
    rintro pid (heq | ⟨heq, -⟩)
    · exact nomatch heq
    · exact nomatch heq
  have hplace : s.place s.current ≠ .inSleep := by
    rw [hr.place]
    decide
  have hstate := h.running hr.atSchedule
  have hnone : ∀ n, StepOk s (.execve answers) s (some n) := fun n =>
    ⟨h, .quiet (.ofSame rfl rfl rfl rfl rfl) fun pid hw => absurd hw (hnowait pid), rfl, rfl,
      fun _ _ => Or.inl rfl, fun _ _ => Or.inl rfl, Or.inl rfl⟩
  rw [doExecve] at hrun
  by_cases hargs : ¬ answers.argcOk ∨ ¬ answers.nameOk
  · rw [if_pos hargs] at hrun
    cases hrun
    exact hnone _
  rw [if_neg hargs] at hrun
  obtain ⟨hargc, hname⟩ := not_or.mp hargs
  cases hkargv : answers.kargv with
  | error e =>
    rw [hkargv] at hrun
    cases hrun
    exact hnone _
  | ok u =>
    have hall : answers.argcOk = true ∧ answers.nameOk = true ∧ answers.kargv = .ok () :=
      ⟨not_not.mp hargc, not_not.mp hname, hkargv⟩
    rw [hkargv] at hrun
    dsimp only at hrun
    cases ht : s.filesp s.current with
    | none =>
      rw [ht] at hrun
      exact nomatch hrun
    | some t =>
      rw [ht] at hrun
      obtain ⟨tables, hclose, hrest⟩ := bind_eq_ok.mp hrun
      cases hfile : answers.file with
      | error e =>
        rw [hfile] at hrest
        exact stepOk_exit h hr.ne_idle hstate hplace (.noFile hall ht hclose hfile) hrest
      | ok r =>
        obtain ⟨fd, node⟩ := r
        rw [hfile] at hrest
        dsimp only at hrest
        obtain ⟨mm, mmCount, hput, hmm⟩ := putMm_eq s.current
          { s with tables := tables.fdArrayOpen t fd node }
        rw [hput] at hrest
        cases hload : answers.load with
        | error e =>
          rw [hload] at hrest
          exact stepOk_exit h hr.ne_idle hstate hplace (.noLoad hall ht hclose hfile hload hmm) hrest
        | ok m =>
          rw [hload] at hrest
          cases hrest
          exact ⟨h.ofSame _ _ _ _ _ _ _ _ _, .tables _ _ (.execve ht hclose hfile), rfl, rfl,
            fun _ _ => Or.inl rfl, fun _ _ => Or.inl rfl, Or.inl rfl⟩

/-- The step is none of `do_wait`. -/
theorem Quiet.stepped (h : Quiet s s') (hop : op ≠ .resume) (hwait : ∀ pid, op ≠ .wait pid true) :
    Stepped s op s' ret := by
  refine .quiet h ?_
  rintro pid (heq | ⟨heq, -⟩)
  · exact absurd heq (hwait pid)
  · exact absurd heq hop

theorem withTable_eq {f : ℕ → Tables → Tables} (hrun : s.withTable f = .ok (s', ret)) :
    ∃ t, s.filesp s.current = some t ∧ s' = { s with tables := f t s.tables } ∧ ret = some 0 := by
  rw [withTable] at hrun
  split at hrun
  case h_1 => exact nomatch hrun
  case h_2 t ht =>
    cases hrun
    exact ⟨t, ht, rfl, rfl⟩

/-- A process goes on. -/
theorem stepOk_resume (h : Ok s) (hplace : s.place s.current ≠ .run) (hat : s.atSchedule = false)
    (hrun : s.resume = .ok (s', ret)) : StepOk s .resume s' ret := by
  have hr := h.running hat
  have hidle : s.current ≠ s.idleproc := fun heq => hplace (heq ▸ h.waits.idlePlace)
  rw [resume] at hrun
  cases hp : s.place s.current with
  | run => exact absurd hp hplace
  | inWait pid =>
    rw [hp] at hrun
    dsimp only at hrun
    have hsleep : s.place s.current ≠ .inSleep := by
      rw [hp]
      exact fun heq => nomatch heq
    cases hexit : s.exiting s.current with
    | true =>
      rw [hexit, if_pos rfl] at hrun
      exact stepOk_exit h hidle hr hsleep (.killed hp hexit) hrun
    | false =>
      rw [hexit, if_neg Bool.false_ne_true] at hrun
      exact stepOk_wait h hidle hr hsleep (Or.inr ⟨rfl, hp⟩) hrun
  | inSleep =>
    rw [hp] at hrun
    cases hrun
    have hmap := map_delTimer s.current s.timerList
    have hplace : ∀ p ∈ s.procList, update s.place s.current .run p = s.place p ∨
        p = s.current ∧ Op.resume.Pauses := by
      intro p _
      by_cases hpc : p = s.current
      · exact Or.inr ⟨hpc, trivial⟩
      · exact Or.inl (update_of_ne hpc _ _)
    refine ⟨h.goOn hr ?_ ?_ (delTimer_head h.timers.head) ?_, .quiet (.ofSame rfl rfl rfl rfl rfl) ?_,
      rfl, rfl, fun _ _ => Or.inl rfl, hplace, Or.inr hp⟩
    · rw [hmap]
      exact h.timers.nodup.erase _
    · rw [hmap]
      exact List.erase_subset
    · rw [hmap]
      exact fun hmem => (h.timers.nodup.mem_erase_iff.mp hmem).1 rfl
    · rintro pid (heq | ⟨-, heq⟩)
      · exact nomatch heq
      · exact nomatch hp.symm.trans heq

/-- The timer interrupt. -/
theorem stepOk_tick (h : Ok s) (hrun : s.step .tick = .ok (s', ret)) : StepOk s .tick s' ret := by
  obtain ⟨s₁, htick, heq⟩ := map_eq_ok.mp hrun
  obtain ⟨rfl, rfl⟩ := Prod.mk.inj heq
  obtain ⟨s₂, hrun₂, hok, ⟨s₃, hw, hframe⟩⟩ := runTimerList_ok h
  cases htick.symm.trans hrun₂
  have hquiet := hw.quiet
  obtain ⟨state, waitState, run, rq, ts, k, rfl⟩ := hw.explicit
  refine ⟨hok, Quiet.stepped ?_ (fun heq => nomatch heq) (fun _ heq => nomatch heq), ?_, ?_,
    fun p _ => Or.inl ?_, fun p _ => Or.inl ?_, Or.inr trivial⟩
  · rw [hframe]
    exact ⟨hquiet.procList, hquiet.parent, hquiet.tables, hquiet.filesp, hquiet.zombie⟩
  · rw [hframe]
  · rw [hframe]
  · rw [hframe]
  · rw [hframe]

/-- **What a step can do.** -/
theorem step_ok (h : Ok s) (hen : s.Enabled op) (hrun : s.step op = .ok (s', ret)) :
    StepOk s op s' ret := by
  have hnz : s.atSchedule = false → s.state s.current ≠ .PROC_ZOMBIE := by
    intro hat
    rw [h.running hat]
    decide
  cases op with
  | fork cloneVm cloneFs answers => exact stepOk_fork h hen.1 hen.2 hrun
  | execve answers => exact stepOk_execve h hen.1 hrun
  | resume => exact stepOk_resume h hen.1 hen.2 hrun
  | tick => exact stepOk_tick h hrun
  | exit code =>
    have hr : s.Running := hen
    refine stepOk_exit h hr.ne_idle (h.running hr.atSchedule) ?_ (.exit code) hrun
    rw [hr.place]
    decide
  | wait pid storeOk =>
    have hr : s.Running := hen
    cases storeOk with
    | true =>
      refine stepOk_wait h hr.ne_idle (h.running hr.atSchedule) ?_ (Or.inl rfl) hrun
      rw [hr.place]
      decide
    | false =>
      cases hrun
      exact ⟨h, .quiet (.ofSame rfl rfl rfl rfl rfl) (fun _ _ heq => nomatch heq), rfl, rfl,
        fun _ _ => Or.inl rfl, fun _ _ => Or.inl rfl, Or.inl rfl⟩
  | kill pid =>
    obtain ⟨⟨s₁, n⟩, hkill, heq⟩ := map_eq_ok.mp hrun
    obtain ⟨rfl, rfl⟩ := Prod.mk.inj heq
    obtain ⟨s₂, n₂, hrun₂, hok, hexiting, hw⟩ := doKill_ok h pid
    cases hkill.symm.trans hrun₂
    have hframe := hw.frame
    have hquiet : Quiet s s₁ := ⟨hw.quiet.procList, hw.quiet.parent, hw.quiet.tables,
      hw.quiet.filesp, hw.quiet.zombie⟩
    refine ⟨hok, hquiet.stepped (fun heq => nomatch heq) (fun _ heq => nomatch heq), ?_, ?_, ?_,
      fun p _ => Or.inl ?_, Or.inl ?_⟩
    rotate_right 2
    · rw [hframe]
    · rw [hframe]
    · rw [hframe]
    · rw [hframe]
    · intro p _
      by_cases hp : s₁.exiting p = s.exiting p
      · exact Or.inl hp
      · exact Or.inr (by rw [(hexiting p hp).2])
  | sleep time =>
    have hr : s.Running := hen
    rcases doSleep_ok h hr time with ⟨-, heq⟩ | ⟨place, timers, hother, heq, hok⟩
    · cases hrun.symm.trans heq
      exact ⟨h, Quiet.stepped (.ofSame rfl rfl rfl rfl rfl) (fun heq => nomatch heq)
        (fun _ heq => nomatch heq), rfl, rfl, fun _ _ => Or.inl rfl, fun _ _ => Or.inl rfl, Or.inl rfl⟩
    · cases hrun.symm.trans heq
      refine ⟨hok, (quiet_block (hnz hr.atSchedule) place timers _).stepped (fun heq => nomatch heq)
        (fun _ heq => nomatch heq), rfl, rfl, fun _ _ => Or.inl rfl, ?_, Or.inr trivial⟩
      intro p _
      by_cases hp : p = s.current
      · exact Or.inr ⟨hp, trivial⟩
      · exact Or.inl (hother p hp)
  | yield =>
    cases hrun
    exact ⟨h.ofSame _ _ _ _ _ _ _ _ _, Quiet.stepped (.ofSame rfl rfl rfl rfl rfl)
      (fun heq => nomatch heq) (fun _ heq => nomatch heq), rfl, rfl, fun _ _ => Or.inl rfl, fun _ _ => Or.inl rfl, Or.inl rfl⟩
  | openFile fd node =>
    obtain ⟨t, ht, rfl, rfl⟩ := withTable_eq hrun
    exact ⟨h.ofSame _ _ _ _ _ _ _ _ _, .tables s.mm s.mmCount (.openFile ht), rfl, rfl,
      fun _ _ => Or.inl rfl, fun _ _ => Or.inl rfl, Or.inl rfl⟩
  | closeFile fd =>
    obtain ⟨t, ht, rfl, rfl⟩ := withTable_eq hrun
    exact ⟨h.ofSame _ _ _ _ _ _ _ _ _, .tables s.mm s.mmCount (.closeFile ht), rfl, rfl,
      fun _ _ => Or.inl rfl, fun _ _ => Or.inl rfl, Or.inl rfl⟩
  | chdir node =>
    obtain ⟨t, ht, rfl, rfl⟩ := withTable_eq hrun
    exact ⟨h.ofSame _ _ _ _ _ _ _ _ _, .tables s.mm s.mmCount (.chdir ht), rfl, rfl,
      fun _ _ => Or.inl rfl, fun _ _ => Or.inl rfl, Or.inl rfl⟩
  | block ws =>
    obtain ⟨hr, hws⟩ : s.Running ∧ _ := hen
    cases hrun
    refine ⟨h.block hr.ne_idle (fun _ _ => rfl) h.timers.nodup h.timers.mem h.timers.head
      (fun hsleep => ?_) (fun hchild => ?_), (quiet_block (hnz hr.atSchedule) s.place s.timerList
      ws).stepped (fun heq => nomatch heq) (fun _ heq => nomatch heq), rfl, rfl, fun _ _ => Or.inl rfl, fun _ _ => Or.inl rfl, Or.inl rfl⟩
    · exact nomatch hr.place.symm.trans hsleep
    · rcases hws with rfl | rfl
      · exact nomatch hchild
      · exact nomatch hchild
  | schedule =>
    obtain ⟨s₁, hsched, heq⟩ := map_eq_ok.mp hrun
    obtain ⟨rfl, rfl⟩ := Prod.mk.inj heq
    obtain ⟨s₂, hrun₂, hs⟩ := schedule_ok h.sched
    cases hsched.symm.trans hrun₂
    refine ⟨h.switches hs, Quiet.stepped (.ofSame ?_ ?_ ?_ ?_ ?_) (fun heq => nomatch heq)
      (fun _ heq => nomatch heq), ?_, ?_, fun p _ => Or.inl ?_, fun p _ => Or.inl ?_,
      Or.inl ?_⟩ <;> rw [hs.frame]
  | wakeup p =>
    obtain ⟨hp, hsleep, -⟩ : p ∈ s.allocated ∧ s.state p = .PROC_SLEEPING ∧ _ := hen
    obtain ⟨s₁, hwake, heq⟩ := map_eq_ok.mp hrun
    obtain ⟨rfl, rfl⟩ := Prod.mk.inj heq
    obtain ⟨s₂, hrun₂, hw, hok⟩ := h.wakeupProc ((h.alloc p).mp hp) (by rw [hsleep]; decide)
    cases hwake.symm.trans hrun₂
    refine ⟨hok, hw.quiet.stepped (fun heq => nomatch heq) (fun _ heq => nomatch heq), ?_, ?_,
      fun p _ => Or.inl ?_, fun p _ => Or.inl ?_, Or.inl ?_⟩ <;> rw [hw.frame]

/-! ### Where a step stops -/

/-- The assertions about tables of files. -/
def Panic.OfFiles : Panic → Prop
  | .copyFiles | .dupFiles | .filesCloseall | .nullPointer => True
  | _ => False

/-- The operation can call `do_exit`. -/
def State.MayExit (s : State) : Op → Prop
  | .exit _ | .execve _ => True
  | .resume => s.exiting s.current = true
  | _ => False

theorem doExit_error (h : Ok s) (hidle : s.current ≠ s.idleproc)
    (hr : s.state s.current = .PROC_RUNNABLE) (hplace : s.place s.current ≠ .inSleep) {code : ℤ}
    {e : Panic} (hrun : (s.doExit code).map (fun s => (s, (none : Option ℤ))) = .error e) :
    e = .initExit ∧ s.current = s.initproc := by
  by_cases hinit : s.current = s.initproc
  · rw [doExit, require_pos hidle, bind_ok, require, if_neg (not_not.mpr hinit), bind_error] at hrun
    cases hrun
    exact ⟨rfl, hinit⟩
  · obtain ⟨s', heq, -⟩ := doExit_ok h hidle hinit hr hplace code
    rw [heq] at hrun
    cases hrun

theorem withTable_error {f : ℕ → Tables → Tables} {e : Panic} (hrun : s.withTable f = .error e) :
    e.OfFiles := by
  rw [withTable] at hrun
  split at hrun
  case h_1 =>
    cases hrun
    trivial
  case h_2 => exact nomatch hrun

theorem doExecve_error (h : Ok s) (hr : s.Running) {answers : ExecAnswers} {e : Panic}
    (hrun : s.doExecve answers = .error e) :
    e.OfFiles ∨ e = .initExit ∧ s.current = s.initproc := by
  have hplace : s.place s.current ≠ .inSleep := by
    rw [hr.place]
    decide
  have hexit : ∀ mm mmCount tables (code : ℤ), (({ s with
      mm := mm, mmCount := mmCount, tables := tables } : State).doExit code).map (fun s => (s, (none : Option ℤ))) = .error e →
      e = .initExit ∧ s.current = s.initproc := fun mm mmCount tables code =>
    doExit_error (h.ofSame s.needResched s.exiting mm s.filesp s.exitCode mmCount s.timeSlice s.procNum
      tables) hr.ne_idle (h.running hr.atSchedule) hplace
  rw [doExecve] at hrun
  split at hrun
  case isTrue => exact nomatch hrun
  split at hrun
  case h_1 => exact nomatch hrun
  split at hrun
  case h_1 =>
    cases hrun
    exact Or.inl trivial
  case h_2 t _ =>
    by_cases hpos : 0 < (s.tables.files t).filesCount
    · rw [Tables.filesCloseall, require_pos hpos, bind_ok, bind_ok] at hrun
      right
      dsimp only at hrun
      split at hrun
      case h_1 => exact hexit _ _ _ _ hrun
      case h_2 fd node _ =>
        obtain ⟨mm, mmCount, hput, -⟩ := putMm_eq s.current
          { s with tables := Tables.fdArrayOpen t fd node ((List.range' 2
            (FILES_STRUCT_NENTRY - 2)).foldl (fun fs i => fs.fdArrayClose t i) s.tables) }
        rw [hput] at hrun
        split at hrun
        case h_1 => exact hexit _ _ _ _ hrun
        case h_2 => exact nomatch hrun
    · rw [Tables.filesCloseall, require, if_neg hpos, bind_error, bind_error] at hrun
      cases hrun
      exact Or.inl trivial

/-- **Where a step stops**: only at `initproc` in `do_exit`, and where a process has no table. -/
theorem step_error (h : Ok s) (hen : s.Enabled op) {e : Panic} (hrun : s.step op = .error e) :
    e.OfFiles ∨ e = .initExit ∧ s.current = s.initproc ∧ s.MayExit op := by
  have hruns : s.Running → s.place s.current ≠ .inSleep := by
    intro hr
    rw [hr.place]
    decide
  have hmap : ∀ {α : Type} {x : Except Panic α} {a : α} {f : α → State × Option ℤ}, x = .ok a →
      x.map f ≠ .error e := by
    rintro α x a f rfl
    exact fun heq => nomatch heq
  cases op with
  | fork cloneVm cloneFs answers =>
    obtain ⟨hr, hfresh⟩ : s.Running ∧ _ := hen
    rcases doFork_cases h (hr.mem h) (h.running hr.atSchedule) hfresh
      (rfl : s.doFork cloneVm cloneFs answers = _) with (heq | heq) | ⟨s', ret, heq, -⟩
    · rw [step, heq] at hrun
      cases hrun
      exact Or.inl trivial
    · rw [step, heq] at hrun
      cases hrun
      exact Or.inl trivial
    · exact absurd hrun (hmap heq)
  | execve answers =>
    exact (doExecve_error h hen.1 hrun).imp_right fun hand => ⟨hand.1, hand.2, trivial⟩
  | exit code =>
    have hr : s.Running := hen
    obtain ⟨he, hinit⟩ := doExit_error h hr.ne_idle (h.running hr.atSchedule) (hruns hr) hrun
    exact Or.inr ⟨he, hinit, trivial⟩
  | wait pid storeOk =>
    have hr : s.Running := hen
    cases storeOk with
    | true =>
      obtain ⟨s', ret, heq, -⟩ := waitRepeat_ok h hr.ne_idle (h.running hr.atSchedule) (hruns hr) pid
      exact nomatch heq.symm.trans hrun
    | false => exact nomatch hrun
  | kill pid =>
    obtain ⟨s', ret, heq, -⟩ := doKill_ok h pid
    exact absurd hrun (hmap heq)
  | sleep time =>
    have hr : s.Running := hen
    rcases doSleep_ok h hr time with ⟨-, heq⟩ | ⟨place, timers, -, heq, -⟩
    · exact nomatch heq.symm.trans hrun
    · exact nomatch heq.symm.trans hrun
  | resume =>
    obtain ⟨hplace, hat⟩ : s.place s.current ≠ .run ∧ s.atSchedule = false := hen
    have hidle : s.current ≠ s.idleproc := fun heq => hplace (heq ▸ h.waits.idlePlace)
    rw [step, resume] at hrun
    cases hp : s.place s.current with
    | run => exact absurd hp hplace
    | inWait pid =>
      rw [hp] at hrun
      dsimp only at hrun
      have hsleep : s.place s.current ≠ .inSleep := by
        rw [hp]
        exact fun heq => nomatch heq
      cases hexit : s.exiting s.current with
      | true =>
        rw [hexit, if_pos rfl] at hrun
        obtain ⟨he, hinit⟩ := doExit_error h hidle (h.running hat) hsleep hrun
        exact Or.inr ⟨he, hinit, hexit⟩
      | false =>
        rw [hexit, if_neg Bool.false_ne_true] at hrun
        obtain ⟨s', ret, heq, -⟩ := waitRepeat_ok h hidle (h.running hat) hsleep pid
        exact nomatch heq.symm.trans hrun
    | inSleep =>
      rw [hp] at hrun
      exact nomatch hrun
  | openFile => exact Or.inl (withTable_error hrun)
  | closeFile => exact Or.inl (withTable_error hrun)
  | chdir => exact Or.inl (withTable_error hrun)
  | yield => exact nomatch hrun
  | block => exact nomatch hrun
  | schedule =>
    obtain ⟨s', heq, -⟩ := schedule_ok h.sched
    exact absurd hrun (hmap heq)
  | tick =>
    obtain ⟨s', heq, -⟩ := runTimerList_ok h
    exact absurd hrun (hmap heq)
  | wakeup p =>
    obtain ⟨hp, hsleep, -⟩ : p ∈ s.allocated ∧ s.state p = .PROC_SLEEPING ∧ _ := hen
    obtain ⟨s', heq, -⟩ := h.wakeupProc ((h.alloc p).mp hp) (by rw [hsleep]; decide)
    exact absurd hrun (hmap heq)

end Ucore.Proc
