import Ucore.Proc.Wait

/-!
# `do_fork`

A new process structure is outside all lists until `do_fork` has got everything it needs: where it
fails, the structure is freed and the invariant holds as before.  `Newborn` says what holds meanwhile.
-/

namespace Ucore.Proc

open Function Fallible Forest State

variable {s s' : State} {p c : ℕ}

/-- The process structure `c` is new. -/
structure Newborn (c : ℕ) (s : State) : Prop where
  ok : Ok (s.kfree c)
  notMem : c ∉ s.procList
  ne_idle : c ≠ s.idleproc
  mem : c ∈ s.allocated
  nodup : s.allocated.Nodup
  state : s.state c = .PROC_UNINIT
  waitState : s.waitState c = .none
  parent : s.family.parent c = some s.current
  first : s.family.first c = none
  place : s.place c = .run

theorem Newborn.ofSame (h : Newborn c s) (mm filesp : ℕ → Option ℕ) (mmCount : ℕ → ℤ)
    (tables : Tables) : Newborn c { s with mm, filesp, mmCount, tables } :=
  ⟨h.ok.ofSame _ _ _ _ _ _ _ _ _, h.notMem, h.ne_idle, h.mem, h.nodup, h.state, h.waitState, h.parent,
    h.first, h.place⟩

/-- `alloc_proc`, and the two assignments after it. -/
def State.newProc (c : ℕ) (s : State) : State :=
  { s.allocProc c with
    family := { (s.allocProc c).family with
      parent := update (s.allocProc c).family.parent c (some s.current) }
    waitState := update (s.allocProc c).waitState s.current .none }

theorem newborn_newProc (h : Ok s) (hc : c ∉ s.allocated)
    (hr : s.state s.current = .PROC_RUNNABLE) : Newborn c (s.newProc c) := by
  have hne : ∀ p, p = s.idleproc ∨ p ∈ s.procList → p ≠ c := by
    rintro p hp rfl
    exact hc ((h.alloc p).mpr hp)
  have hcidle : c ≠ s.idleproc := (hne _ (Or.inl rfl)).symm
  have hcmem : c ∉ s.procList := fun hmem => hne c (Or.inr hmem) rfl
  have hcur := hne _ h.sched.known
  have hwait : ∀ p, p = s.idleproc ∨ p ∈ s.procList →
      update (update s.waitState c .none) s.current .none p = s.waitState p := by
    intro p hp
    by_cases hpc : p = s.current
    · rw [hpc, update_self]
      by_contra hnone
      have hsleep := h.waits.sleeping _ h.sched.known (Ne.symm hnone)
      exact nomatch hr.symm.trans hsleep
    · rw [update_of_ne hpc, update_of_ne (hne p hp)]
  have hpar : ∀ p, p ≠ c → update (update s.family.parent c none) c (some s.current) p =
      s.family.parent p := fun p hp => (update_of_ne hp _ _).trans (update_of_ne hp _ _)
  have hlist : (c :: s.allocated).erase c = s.allocated := List.erase_cons_head ..
  refine ⟨⟨?_, ?_, ?_, ?_, ?_, ?_, ?_, h.count, ?_, ?_⟩, hcmem, hcidle, List.mem_cons_self,
    List.nodup_cons.mpr ⟨hc, h.allocNodup⟩, update_self _ _ _, ?_, update_self _ _ _, update_self _ _ _,
    update_self _ _ _⟩
  · refine h.family.congr (fun p hp => update_of_ne (hne p hp) _ _) ?_ ?_
    · intro p hp
      have hpc := hne p (Or.inr hp)
      exact ⟨hpar p hpc, update_of_ne hpc _ _, update_of_ne hpc _ _⟩
    · intro p hp hz
      exact (update_of_ne (hne p hp) _ _).symm.trans hz
  · exact h.pids.congr fun p hp => update_of_ne (hne p (Or.inr hp)) _ _
  · exact h.sched.congr (fun p hp => update_of_ne (hne p (Or.inr hp)) _ _) fun p hp => update_of_ne (hne p hp) _ _
  · refine h.waits.congr (fun p hp => ⟨hwait p hp, update_of_ne (hne p hp) _ _,
      update_of_ne (hne p hp) _ _⟩) fun p hp => ?_
    exact ⟨hpar p (hne p (Or.inr hp)), update_of_ne (hne p (Or.inr hp)) _ _⟩
  · refine h.timers.congr fun p hp => ⟨hwait p (Or.inr hp), ?_, ?_⟩
    · exact update_of_ne (hne p (Or.inr hp)) _ _
    · exact update_of_ne (hne p (Or.inr hp)) _ _
  · exact fun _ => (update_of_ne hcur _ _).trans hr
  · intro hz
    exact h.init ((update_of_ne (hne _ (Or.inr h.init_mem)) _ _).symm.trans hz)
  · show ((c :: s.allocated).erase c).Nodup
    rw [hlist]
    exact h.allocNodup
  · intro p
    show p ∈ (c :: s.allocated).erase c ↔ _
    rw [hlist]
    exact h.alloc p
  · show update (update s.waitState c .none) s.current .none c = _
    rw [update_of_ne hcur.symm, update_self]

/-! ### The lists with a new process -/

theorem PidsOk.hashNew {pid : ℕ → ℤ} {procs : List ℕ} {hash : ℕ → List ℕ}
    {lastPid nextSafe l n : ℤ} (h : PidsOk pid procs hash lastPid nextSafe) (hc : c ∉ procs)
    (hf : Fresh (procs.map pid) l n) : PidsOk (update pid c l) (c :: procs)
      (update hash (pidHashfn l) (c :: hash (pidHashfn l))) l n := by
  have hold : ∀ p ∈ procs, update pid c l p = pid p := fun p hp =>
    update_of_ne (ne_of_mem_of_not_mem hp hc) _ _
  have hnew : ∀ p ∈ procs, pid p ≠ l := fun p hp heq => hf.notMem (heq ▸ List.mem_map_of_mem hp)
  have hpos := hf.pos
  have hlt := hf.lt
  have hsafe := hf.safe
  refine ⟨?_, ?_, ?_, ?_, ?_⟩
  · intro p hp
    rcases List.mem_cons.mp hp with rfl | hp
    · rw [update_self]
      exact ⟨by omega, by omega⟩
    · rw [hold p hp]
      exact h.range p hp
  · intro p hp q hq heq
    rcases List.mem_cons.mp hp with hpc | hp'
    · rcases List.mem_cons.mp hq with hqc | hq'
      · exact hpc.trans hqc.symm
      · rw [hpc, update_self, hold q hq'] at heq
        exact absurd heq.symm (hnew q hq')
    · rcases List.mem_cons.mp hq with hqc | hq'
      · rw [hqc, update_self, hold p hp'] at heq
        exact absurd heq (hnew p hp')
      · rw [hold p hp', hold q hq'] at heq
        exact h.inj p hp' q hq' heq
  · intro i
    by_cases hi : i = pidHashfn l
    · rw [hi, update_self]
      exact List.nodup_cons.mpr ⟨fun hmem => hc ((h.hash _ c).mp hmem).1, h.hashNodup _⟩
    · rw [update_of_ne hi]
      exact h.hashNodup i
  · intro i p
    have hlist : p ∈ update hash (pidHashfn l) (c :: hash (pidHashfn l)) i ↔
        p = c ∧ i = pidHashfn l ∨ p ∈ hash i := by
      by_cases hi : i = pidHashfn l
      · rw [hi, update_self, List.mem_cons, and_iff_left rfl]
      · rw [update_of_ne hi]
        exact (or_iff_right fun hand => hi hand.2).symm
    rw [hlist, h.hash, List.mem_cons]
    by_cases hp : p = c
    · subst hp
      rw [update_self, or_iff_left fun hand => hc hand.1, and_iff_right rfl,
        and_iff_right (Or.inl rfl), eq_comm]
    · rw [or_iff_right fun hand => hp hand.1, or_iff_right hp]
      refine and_congr_right fun hmem => ?_
      rw [hold p hmem]
  · rw [List.map_cons, update_self, List.map_congr_left hold]
    exact hf.pidOk

theorem SchedOk.extend {run procs : List ℕ} {rq : ℕ → Bool} {state : ℕ → ProcState} {current idle : ℕ}
    (h : SchedOk run rq procs state current idle) (hc : state c ≠ .PROC_RUNNABLE) (hidle : c ≠ idle) :
    SchedOk run rq (c :: procs) state current idle := by
  refine ⟨h.nodup, h.linked, ?_, h.known.imp_right (List.mem_cons_of_mem _), h.idleRunnable, ?_⟩
  · intro p
    rw [h.mem, List.mem_cons]
    constructor
    · rintro ⟨hp, hrest⟩
      exact ⟨Or.inr hp, hrest⟩
    · rintro ⟨hp, hr, hne⟩
      refine ⟨hp.resolve_left ?_, hr, hne⟩
      rintro rfl
      exact hc hr
  · intro hmem
    rcases List.mem_cons.mp hmem with heq | hmem
    · exact hidle heq.symm
    · exact h.idle_notMem hmem

/-- The new process runs, and waits for nothing. -/
theorem WaitsOk.extend {waitState : ℕ → WaitState} {state : ℕ → ProcState} {place : ℕ → Place}
    {parent : ℕ → Option ℕ} {pid pid' : ℕ → ℤ} {procs : List ℕ} {idle : ℕ}
    (h : WaitsOk waitState state place parent pid procs idle) (hc : c ∉ procs) (hidle : c ≠ idle)
    (hpid : ∀ p ∈ procs, pid' p = pid p) : WaitsOk (update waitState c .none)
      (update state c .PROC_RUNNABLE) place parent pid' (c :: procs) idle := by
  have hne : ∀ p, p = idle ∨ p ∈ procs → p ≠ c := by
    rintro p (rfl | hp) rfl
    · exact hidle rfl
    · exact hc hp
  refine ⟨?_, ?_, h.idlePlace, ?_⟩
  · intro p hp hwait
    rw [List.mem_cons, or_left_comm] at hp
    rcases hp with rfl | hp
    · exact absurd (update_self _ _ _) hwait
    · rw [update_of_ne (hne p hp)] at hwait ⊢
      exact h.sleeping p hp hwait
  · intro p hp hchild
    rcases List.mem_cons.mp hp with rfl | hp
    · exact nomatch (update_self p WaitState.none waitState).symm.trans hchild
    · rw [update_of_ne (hne p (Or.inr hp))] at hchild
      obtain ⟨n, hn, hnone⟩ := h.child p hp hchild
      refine ⟨n, hn, ?_⟩
      intro b hb hpar hz
      rcases List.mem_cons.mp hb with rfl | hb
      · exact nomatch (update_self b ProcState.PROC_RUNNABLE state).symm.trans hz
      · rw [hpid b hb]
        exact hnone b hb hpar ((update_of_ne (hne b (Or.inr hb)) _ _).symm.trans hz)
  · intro p hp
    rcases List.mem_cons.mp hp with rfl | hp
    · rw [update_self]
      decide
    · rw [update_of_ne (hne p (Or.inr hp))]
      exact h.born p hp

theorem TimersOk.extend {timers : List (ℕ × ℕ)} {waitState : ℕ → WaitState}
    {state : ℕ → ProcState} {place : ℕ → Place} {procs : List ℕ}
    (h : TimersOk timers procs place state waitState) (hc : c ∉ procs) (hplace : place c = .run) :
    TimersOk timers (c :: procs) place (update state c .PROC_RUNNABLE) (update waitState c .none) := by
  refine ⟨h.nodup, ?_, h.head, ?_⟩
  · intro p hp
    obtain ⟨hmem, hin, hz⟩ := h.mem p hp
    rw [update_of_ne (ne_of_mem_of_not_mem hmem hc)]
    exact ⟨List.mem_cons_of_mem _ hmem, hin, hz⟩
  · intro p hp hin
    rcases List.mem_cons.mp hp with rfl | hp
    · exact nomatch hplace.symm.trans hin
    · rw [update_of_ne (ne_of_mem_of_not_mem hp hc)]
      exact h.wait p hp hin

/-- A new child of a process. -/
theorem FamilyOk.extend {family : Links ℕ} {idle init : ℕ} {procs : List ℕ}
    {state : ℕ → ProcState} (h : FamilyOk family idle init procs state) (hc : c ∉ procs)
    (hidle : c ≠ idle) (hp : p ∈ procs) (hpar : family.parent c = some p)
    (hfirst : family.first c = none) (hz : state p ≠ .PROC_ZOMBIE) :
    FamilyOk (family.attach c p) idle init (c :: procs) (update state c .PROC_RUNNABLE) := by
  have hset : insert c { p | p ∈ procs } = { p | p ∈ c :: procs } := by
    ext q
    exact List.mem_cons.symm
  refine ⟨?_, List.nodup_cons.mpr ⟨hc, h.nodup⟩, .cons hpar hp h.elders, h.initParent, ?_⟩
  · rw [← hset]
    exact h.forest.attach hc hidle (Or.inr hp) hpar hfirst
  · intro b hb q hq
    by_cases hqc : q = c
    · rw [hqc, update_self]
      decide
    · rw [update_of_ne hqc]
      rcases List.mem_cons.mp hb with rfl | hb
      · exact Option.some.inj (hpar.symm.trans hq) ▸ hz
      · exact h.live b hb q hq

/-! ### The new process starts -/

/-- What `do_fork` changes when it returns the pid of the new process `c`. -/
structure Starts (c : ℕ) (s s' : State) : Prop where
  frame : s' = { s with
    pid := s'.pid
    lastPid := s'.lastPid
    nextSafe := s'.nextSafe
    hashList := s'.hashList
    procList := c :: s.procList
    family := s'.family
    nrProcess := s.nrProcess + 1
    state := update s.state c .PROC_RUNNABLE
    waitState := update s.waitState c .none
    runList := s'.runList
    rq := s'.rq
    timeSlice := s'.timeSlice
    procNum := s'.procNum }

/-- The end of `do_fork`, for a child of `q`. -/
theorem startProc_eq {q : ℕ} (hpar : s.family.parent c = some q) (hstate : s.state c = .PROC_UNINIT)
    (hidle : c ≠ s.idleproc) (hrun : c ∉ s.runList)
    (hnext : PidOk (s.procList.map s.pid) s.lastPid s.nextSafe)
    (hlen : (s.procList.length : ℤ) < MAX_PROCESS) : ∃ l n ts k,
      Fresh (s.procList.map s.pid) l n ∧ s.startProc c = .ok ({ s with
        pid := update s.pid c l
        lastPid := l
        nextSafe := n
        hashList := update s.hashList (pidHashfn l) (c :: s.hashList (pidHashfn l))
        procList := c :: s.procList
        family := s.family.attach c q
        nrProcess := s.nrProcess + 1
        state := update s.state c .PROC_RUNNABLE
        waitState := update s.waitState c .none
        runList := if c = s.current then s.runList else s.runList ++ [c]
        rq := if c = s.current then s.rq else update s.rq c true
        timeSlice := ts
        procNum := k }, l) := by
  have hconst : MAX_PID = 8192 := rfl
  have hproc : MAX_PROCESS = 4096 := rfl
  obtain ⟨l, n, hget, hfresh⟩ := getPid_ok hnext (by
    rw [List.length_map]
    omega)
  let s₁ : State := { s with
    pid := update s.pid c l, lastPid := l, nextSafe := n
    hashList := update s.hashList (pidHashfn l) (c :: s.hashList (pidHashfn l))
    procList := c :: s.procList
    family := s.family.attach c q
    nrProcess := s.nrProcess + 1 }
  have hz : s₁.state c ≠ .PROC_ZOMBIE := by
    rw [show s₁.state c = .PROC_UNINIT from hstate]
    decide
  have hr : s₁.state c ≠ .PROC_RUNNABLE := by
    rw [show s₁.state c = .PROC_UNINIT from hstate]
    decide
  obtain ⟨ts, k, hwake⟩ := wakeupProc_eq hz hr hidle hrun
  have hlinks : (({ s with pid := update s.pid c l, lastPid := l, nextSafe := n } : State).hashProc
      c).setLinks c = .ok s₁ := by
    rw [setLinks]
    split
    case h_1 hnone => exact absurd (hnone.symm.trans hpar) (by simp)
    case h_2 parent hsome =>
      obtain rfl : q = parent := Option.some.inj (hpar.symm.trans hsome)
      simp only [hashProc, update_self]
      rfl
  refine ⟨l, n, ts, k, hfresh, ?_⟩
  rw [startProc, hget]
  dsimp only
  rw [hlinks, bind_ok, hwake, bind_ok]
  show Except.ok (_, update s.pid c l c) = _
  rw [update_self]

/-- **The end of `do_fork`**: with fewer than `MAX_PROCESS` processes there is a pid. -/
theorem startProc_ok (h : Newborn c s) (hcur : s.current ∈ s.procList)
    (hz : s.state s.current ≠ .PROC_ZOMBIE) (hmax : (s.nrProcess : ℤ) < MAX_PROCESS) :
    ∃ s' ret, s.startProc c = .ok (s', ret) ∧ Ok s' ∧ Starts c s s' ∧ 0 < ret := by
  have hok := h.ok
  have hcount : s.nrProcess = s.procList.length + 1 := hok.count
  have hstate : s.state c ≠ .PROC_RUNNABLE := by
    rw [h.state]
    decide
  have hrun : c ∉ s.runList := fun hmem => h.notMem ((hok.sched.mem c).mp hmem).1
  have hpid : ∀ l, ∀ p ∈ s.procList, update s.pid c l p = s.pid p := fun l p hp =>
    update_of_ne (ne_of_mem_of_not_mem hp h.notMem) _ _
  have hcne : s.current ≠ c := ne_of_mem_of_not_mem hcur h.notMem
  obtain ⟨l, n, ts, k, hfresh, heq⟩ := startProc_eq h.parent h.state h.ne_idle hrun hok.pids.next
    (by omega)
  refine ⟨_, l, heq, ⟨hok.family.extend h.notMem h.ne_idle hcur h.parent h.first hz,
    hok.pids.hashNew h.notMem hfresh, (hok.sched.extend ?_ h.ne_idle).wake List.mem_cons_self ?_,
    hok.waits.extend h.notMem h.ne_idle (hpid l), hok.timers.extend h.notMem h.place, ?_, ?_, ?_, h.nodup,
    ?_⟩, ⟨rfl⟩, ?_⟩
  · exact hstate
  · exact hstate
  · intro hat
    exact (update_of_ne hcne _ _).trans (hok.running hat)
  · show update s.state c .PROC_RUNNABLE s.initproc ≠ _
    by_cases hi : s.initproc = c
    · rw [hi, update_self]
      decide
    · rw [update_of_ne hi]
      exact hok.init
  · show s.nrProcess + 1 = (c :: s.procList).length + 1
    rw [List.length_cons, hcount]
  · intro p
    have halloc := hok.alloc p
    have herase : p ∈ s.allocated.erase c ↔ p ≠ c ∧ p ∈ s.allocated := h.nodup.mem_erase_iff
    show p ∈ s.allocated ↔ p = s.idleproc ∨ p ∈ c :: s.procList
    rw [List.mem_cons, or_left_comm]
    by_cases hp : p = c
    · exact iff_of_true (hp ▸ h.mem) (Or.inl hp)
    · rw [or_iff_right hp]
      exact (and_iff_right hp).symm.trans (herase.symm.trans halloc)
  · exact lt_of_lt_of_le Int.zero_lt_one hfresh.pos

/-! ### `do_fork` -/

/-- The table of the new process: that of `current`, which is `t₀`, or a copy of it. -/
def GetsTable (cloneFs : Bool) (answer : Option ℕ) (s : State) (t : ℕ) (tables : Tables) : Prop :=
  ∃ t₀, s.filesp s.current = some t₀ ∧
    (cloneFs = true ∧ t = t₀ ∧ tables = s.tables.filesCountInc t ∨
      cloneFs = false ∧ answer = some t ∧ ∃ fs, (s.tables.filesCreate t).dupFiles t t₀ = .ok fs ∧
        tables = fs.filesCountInc t)

theorem copyFiles_cases {cloneFs : Bool} {answer : Option ℕ} {r : Except Panic (Option State)}
    (hrun : s.copyFiles cloneFs answer c = r) : (r = .error .copyFiles ∨ r = .error .dupFiles) ∨
      r = .ok none ∨ ∃ t tables, GetsTable cloneFs answer s t tables ∧
        r = .ok (some { s with filesp := update s.filesp c (some t), tables := tables }) := by
  subst hrun
  rw [copyFiles]
  cases ht₀ : s.filesp s.current with
  | none => exact Or.inl (Or.inl rfl)
  | some t₀ =>
    dsimp only
    cases cloneFs with
    | true => exact Or.inr (Or.inr ⟨t₀, _, ⟨t₀, ht₀, Or.inl ⟨rfl, rfl, rfl⟩⟩, rfl⟩)
    | false =>
      rw [if_neg Bool.false_ne_true]
      cases answer with
      | none => exact Or.inr (Or.inl rfl)
      | some t =>
        dsimp only
        rcases (s.tables.filesCreate t).dupFiles_cases t t₀ with ⟨fs, hdup⟩ | hdup
        · rw [hdup, bind_ok]
          exact Or.inr (Or.inr ⟨t, _, ⟨t₀, ht₀, Or.inr ⟨rfl, rfl, fs, hdup, rfl⟩⟩, rfl⟩)
        · rw [hdup, bind_error]
          exact Or.inl (Or.inr rfl)

theorem copyMm_cases {cloneVm : Bool} {answer : Option ℕ} {s₁ : State}
    (hrun : s.copyMm cloneVm answer c = some s₁) :
    ∃ mm mmCount, s₁ = { s with mm := mm, mmCount := mmCount } := by
  rw [copyMm] at hrun
  split at hrun
  · cases hrun
    exact ⟨_, _, rfl⟩
  · split at hrun
    · cases hrun
      exact ⟨_, _, rfl⟩
    · obtain ⟨m, -, rfl⟩ := Option.map_eq_some_iff.mp hrun
      exact ⟨_, _, rfl⟩

/-- What `do_fork` has done. -/
inductive Forked (cloneFs : Bool) (answers : ForkAnswers) (s : State) : State → ℤ → Prop
  | refused (ret : ℤ) (hret : ret < 0) : Forked cloneFs answers s s ret
  | failed (c : ℕ) (hproc : answers.proc = some c) (mm : ℕ → Option ℕ) (mmCount : ℕ → ℤ) :
      Forked cloneFs answers s { (s.newProc c).kfree c with mm := mm, mmCount := mmCount } (-E_NO_MEM)
  | started (c : ℕ) (hproc : answers.proc = some c) (mm : ℕ → Option ℕ) (mmCount : ℕ → ℤ) (t : ℕ)
      (tables : Tables) (ht : GetsTable cloneFs answers.files s t tables) {s' : State} {ret : ℤ}
      (hstart : Starts c { s.newProc c with
        mm := mm, mmCount := mmCount, filesp := update (s.newProc c).filesp c (some t)
        tables := tables } s') (hret : 0 < ret) : Forked cloneFs answers s s' ret

theorem putMm_eq (p : ℕ) (s : State) : ∃ mm mmCount,
    s.putMm p = { s with mm := mm, mmCount := mmCount } ∧ mm p = none := by
  rw [putMm]
  split
  case h_1 hnone => exact ⟨_, _, rfl, hnone⟩
  case h_2 => exact ⟨_, _, rfl, update_self _ _ _⟩

/-- `do_fork` behind its first two checks. -/
theorem doFork_eq (hmax : ¬ (s.nrProcess : ℤ) ≥ MAX_PROCESS) {answers : ForkAnswers}
    (hproc : answers.proc = some c) (cloneVm cloneFs : Bool) :
    s.doFork cloneVm cloneFs answers =
      (if ¬ answers.kstack then .ok ((s.newProc c).kfree c, -E_NO_MEM) else
      match (s.newProc c).copyMm cloneVm answers.mm c with
      | none => .ok ((s.newProc c).kfree c, -E_NO_MEM)
      | some s₁ => do
        match ← s₁.copyFiles cloneFs answers.files c with
        | none =>
          let s₂ ← s₁.putFiles c
          .ok ((s₂.putMm c).kfree c, -E_NO_MEM)
        | some s₂ => s₂.startProc c) := by
  rw [doFork, if_neg hmax, hproc]
  rfl

/-- `do_fork`, whose assertions are those of `copy_files`. -/
theorem doFork_cases (h : Ok s) (hcur : s.current ∈ s.procList)
    (hr : s.state s.current = .PROC_RUNNABLE) {cloneVm cloneFs : Bool} {answers : ForkAnswers}
    (hfresh : s.Fresh answers) {r : Except Panic (State × ℤ)}
    (hrun : s.doFork cloneVm cloneFs answers = r) :
    (r = .error .copyFiles ∨ r = .error .dupFiles) ∨
      ∃ s' ret, r = .ok (s', ret) ∧ Ok s' ∧ Forked cloneFs answers s s' ret := by
  by_cases hmax : (s.nrProcess : ℤ) ≥ MAX_PROCESS
  · rw [doFork, if_pos hmax] at hrun
    exact Or.inr ⟨s, _, hrun.symm, h, .refused _ (by decide)⟩
  cases hproc : answers.proc with
  | none =>
    rw [doFork, if_neg hmax, hproc] at hrun
    exact Or.inr ⟨s, _, hrun.symm, h, .refused _ (by decide)⟩
  | some c =>
    have hc := hfresh.1 c hproc
    have hborn := newborn_newProc h hc hr
    have hfails : ∀ mm mmCount,
        r = .ok ({ (s.newProc c).kfree c with mm := mm, mmCount := mmCount }, -E_NO_MEM) →
        ∃ s' ret, r = .ok (s', ret) ∧ Ok s' ∧ Forked cloneFs answers s s' ret := fun mm mmCount heq =>
      ⟨_, _, heq, hborn.ok.ofSame _ _ _ _ _ _ _ _ _, .failed c hproc mm mmCount⟩
    rw [doFork_eq hmax hproc] at hrun
    by_cases hk : answers.kstack
    swap
    · rw [if_pos hk] at hrun
      exact Or.inr (hfails _ _ hrun.symm)
    rw [if_neg (not_not.mpr hk)] at hrun
    cases hmm : (s.newProc c).copyMm cloneVm answers.mm c with
    | none =>
      rw [hmm] at hrun
      exact Or.inr (hfails _ _ hrun.symm)
    | some s₁ =>
      rw [hmm] at hrun
      dsimp only at hrun
      obtain ⟨mm, mmCount, rfl⟩ := copyMm_cases hmm
      rcases copyFiles_cases (rfl : ({ s.newProc c with mm := mm, mmCount := mmCount } :
        State).copyFiles cloneFs answers.files c = _) with
        (heq | heq) | heq | ⟨t, tables, hgets, heq⟩
      · rw [heq, bind_error] at hrun
        exact Or.inl (Or.inl hrun.symm)
      · rw [heq, bind_error] at hrun
        exact Or.inl (Or.inr hrun.symm)
      · have hnone : (s.newProc c).filesp c = none := update_self _ _ _
        have hput : ({ s.newProc c with mm := mm, mmCount := mmCount } : State).putFiles c =
            .ok { s.newProc c with mm := mm, mmCount := mmCount } := by
          rw [State.putFiles, show ({ s.newProc c with mm, mmCount } : State).filesp c = none from
            hnone]
        obtain ⟨mm', mmCount', hmm', -⟩ := putMm_eq c { s.newProc c with mm, mmCount }
        rw [heq, bind_ok] at hrun
        dsimp only at hrun
        rw [hput, bind_ok, hmm'] at hrun
        exact Or.inr (hfails _ _ hrun.symm)
      · have hne : s.current ≠ c := by
          rintro rfl
          exact hborn.notMem hcur
        have hz : update s.state c .PROC_UNINIT s.current ≠ .PROC_ZOMBIE := by
          rw [update_of_ne hne, hr]
          decide
        obtain ⟨s₃, ret, hstart, hok, hstarts, hpos⟩ := startProc_ok
          (hborn.ofSame mm (update (s.newProc c).filesp c (some t)) mmCount tables) hcur hz
          (lt_of_not_ge hmax)
        rw [heq, bind_ok] at hrun
        obtain ⟨t₀, ht₀, hcase⟩ := hgets
        have hnew : update s.filesp c none s.current = some t₀ := ht₀
        rw [update_of_ne hne] at hnew
        exact Or.inr ⟨s₃, ret, hrun.symm.trans hstart, hok,
          .started c hproc mm mmCount t tables ⟨t₀, hnew, hcase⟩ hstarts hpos⟩

/-- **`do_fork`** -/
theorem doFork_ok (h : Ok s) (hcur : s.current ∈ s.procList)
    (hr : s.state s.current = .PROC_RUNNABLE) {cloneVm cloneFs : Bool} {answers : ForkAnswers}
    (hfresh : s.Fresh answers) {ret : ℤ}
    (hrun : s.doFork cloneVm cloneFs answers = .ok (s', ret)) :
    Ok s' ∧ Forked cloneFs answers s s' ret := by
  rcases doFork_cases h hcur hr hfresh hrun with (heq | heq) | ⟨s₁, ret₁, heq, hok, hforked⟩
  · exact nomatch heq
  · exact nomatch heq
  · cases heq
    exact ⟨hok, hforked⟩

end Ucore.Proc
