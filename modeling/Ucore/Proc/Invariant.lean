import Ucore.Proc.Model

/-!
# The invariant of the process structures

One structure for each part of the state: the tree, the pids and the lists that hold all processes,
the run queue, the processes that wait, and the timers.  Each speaks of the fields that it needs, so
that it holds of any state with the same fields.

`Elders` orders the processes: a parent stands behind its children in `proc_list`, with `initproc` at
the end.
-/

namespace Ucore.Proc

open Function Forest

/-- Every process but `initproc` has its parent behind it. -/
inductive Elders (parent : ℕ → Option ℕ) (init : ℕ) : List ℕ → Prop
  | init : Elders parent init [init]
  | cons {c p : ℕ} {procs : List ℕ} (hp : parent c = some p) (hmem : p ∈ procs)
      (h : Elders parent init procs) : Elders parent init (c :: procs)

section Elders

variable {parent parent' : ℕ → Option ℕ} {init c p : ℕ} {procs : List ℕ}

theorem Elders.init_mem (h : Elders parent init procs) : init ∈ procs := by
  induction h with
  | init => exact List.mem_cons_self
  | cons _ _ _ ih => exact List.mem_cons_of_mem _ ih

/-- No process is its own parent. -/
theorem Elders.parent_ne (h : Elders parent init procs) (hnodup : procs.Nodup) (hc : c ∈ procs)
    (hne : c ≠ init) : parent c ≠ some c := by
  induction h with
  | init => exact absurd (List.mem_singleton.mp hc) hne
  | cons hp hmem _ ih =>
    obtain ⟨hnot, hnodup⟩ := List.nodup_cons.mp hnodup
    rcases List.mem_cons.mp hc with rfl | hc
    · intro heq
      rw [hp] at heq
      exact hnot (Option.some.inj heq ▸ hmem)
    · exact ih hnodup hc

/-- The children of a process may come under `initproc`. -/
theorem Elders.congr (h : Elders parent init procs)
    (hsame : ∀ c ∈ procs, parent' c = parent c ∨ parent' c = some init) :
    Elders parent' init procs := by
  induction h with
  | init => exact .init
  | @cons b p procs hp hmem h ih =>
    have hrest := ih fun c hc => hsame c (List.mem_cons_of_mem _ hc)
    rcases hsame b List.mem_cons_self with heq | heq
    · exact .cons (heq.trans hp) hmem hrest
    · exact .cons heq hrest.init_mem hrest

/-- A process without children goes. -/
theorem Elders.erase (h : Elders parent init procs) (hne : c ≠ init)
    (hleaf : ∀ b ∈ procs, parent b ≠ some c) : Elders parent init (procs.erase c) := by
  induction h with
  | init =>
    rw [List.erase_of_not_mem fun hmem => hne (List.mem_singleton.mp hmem)]
    exact .init
  | @cons b p procs hp hmem h ih =>
    by_cases hbc : b = c
    · rw [hbc, List.erase_cons_head]
      exact h
    · rw [List.erase_cons_tail (by simpa using hbc)]
      have hpc : p ≠ c := by
        rintro rfl
        exact hleaf b List.mem_cons_self hp
      exact .cons hp ((List.mem_erase_of_ne hpc).mpr hmem)
        (ih fun d hd => hleaf d (List.mem_cons_of_mem _ hd))

/-- **Where `initproc` has no child, it is alone.** -/
theorem Elders.alone (h : Elders parent init procs) (hnone : ∀ c ∈ procs, parent c ≠ some init) :
    procs = [init] := by
  induction h with
  | init => rfl
  | cons hp hmem _ ih =>
    have hrest := ih fun c hc => hnone c (List.mem_cons_of_mem _ hc)
    rw [hrest] at hmem
    rw [List.mem_singleton.mp hmem] at hp
    exact absurd hp (hnone _ List.mem_cons_self)

end Elders

/-! ### The parts -/

/-- The tree: no process has a zombie as its parent. -/
structure FamilyOk (family : Links ℕ) (idle init : ℕ) (procs : List ℕ) (state : ℕ → ProcState) :
    Prop where
  forest : IsForest family idle { p | p ∈ procs }
  nodup : procs.Nodup
  elders : Elders family.parent init procs
  initParent : family.parent init = some idle
  live : ∀ c ∈ procs, ∀ p, family.parent c = some p → state p ≠ .PROC_ZOMBIE

/-- The pids, and the lists of `hash_list`. -/
structure PidsOk (pid : ℕ → ℤ) (procs : List ℕ) (hash : ℕ → List ℕ) (lastPid nextSafe : ℤ) :
    Prop where
  range : ∀ p ∈ procs, 0 < pid p ∧ pid p < MAX_PID
  inj : ∀ p ∈ procs, ∀ q ∈ procs, pid p = pid q → p = q
  hashNodup : ∀ i, (hash i).Nodup
  hash : ∀ i p, p ∈ hash i ↔ p ∈ procs ∧ State.pidHashfn (pid p) = i
  next : PidOk (procs.map pid) lastPid nextSafe

/-- The run queue has the processes that could run. -/
structure SchedOk (run : List ℕ) (rq : ℕ → Bool) (procs : List ℕ) (state : ℕ → ProcState)
    (current idle : ℕ) : Prop where
  nodup : run.Nodup
  linked : ∀ p ∈ run, rq p = true
  mem : ∀ p, p ∈ run ↔ p ∈ procs ∧ state p = .PROC_RUNNABLE ∧ p ≠ current
  known : current = idle ∨ current ∈ procs
  idleRunnable : state idle = .PROC_RUNNABLE
  idle_notMem : idle ∉ procs

/-- `do_wait` for `pid` frees a zombie with the pid `n`. -/
def Accepts (pid n : ℤ) : Prop := pid = 0 ∨ n = pid

/-- Who has a wait state sleeps, and who waits for a child has no zombie to free. -/
structure WaitsOk (waitState : ℕ → WaitState) (state : ℕ → ProcState) (place : ℕ → Place)
    (parent : ℕ → Option ℕ) (pid : ℕ → ℤ) (procs : List ℕ) (idle : ℕ) : Prop where
  sleeping : ∀ p, p = idle ∨ p ∈ procs → waitState p ≠ .none → state p = .PROC_SLEEPING
  child : ∀ p ∈ procs, waitState p = .WT_CHILD → ∃ n, place p = .inWait n ∧
    ∀ c ∈ procs, parent c = some p → state c = .PROC_ZOMBIE → ¬ Accepts n (pid c)
  idlePlace : place idle = .run
  born : ∀ p ∈ procs, state p ≠ .PROC_UNINIT

/-- The timers are those of processes in `do_sleep`. -/
structure TimersOk (timers : List (ℕ × ℕ)) (procs : List ℕ) (place : ℕ → Place)
    (state : ℕ → ProcState) (waitState : ℕ → WaitState) : Prop where
  nodup : (timers.map Prod.fst).Nodup
  mem : ∀ p ∈ timers.map Prod.fst, p ∈ procs ∧ place p = .inSleep ∧ state p ≠ .PROC_ZOMBIE
  head : ∀ e ∈ timers.head?, 0 < e.2
  wait : ∀ p ∈ procs, place p = .inSleep → waitState p = .none ∨ waitState p = .WT_TIMER

/-- **The invariant.** -/
structure Ok (s : State) : Prop where
  family : FamilyOk s.family s.idleproc s.initproc s.procList s.state
  pids : PidsOk s.pid s.procList s.hashList s.lastPid s.nextSafe
  sched : SchedOk s.runList s.rq s.procList s.state s.current s.idleproc
  waits : WaitsOk s.waitState s.state s.place s.family.parent s.pid s.procList s.idleproc
  timers : TimersOk s.timerList s.procList s.place s.state s.waitState
  running : s.atSchedule = false → s.state s.current = .PROC_RUNNABLE
  init : s.state s.initproc ≠ .PROC_ZOMBIE
  count : s.nrProcess = s.procList.length + 1
  allocNodup : s.allocated.Nodup
  alloc : ∀ p, p ∈ s.allocated ↔ p = s.idleproc ∨ p ∈ s.procList

variable {s s' : State} {p c : ℕ}

theorem Ok.init_mem (h : Ok s) : s.initproc ∈ s.procList := h.family.elders.init_mem

theorem Ok.init_ne_idle (h : Ok s) : s.initproc ≠ s.idleproc :=
  ne_of_mem_of_not_mem h.init_mem h.sched.idle_notMem

/-- Who has a parent. -/
theorem Ok.parent (h : Ok s) (hp : p ∈ s.procList) : ∃ q, s.family.parent p = some q ∧
    (q = s.idleproc ∨ q ∈ s.procList) ∧ s.state q ≠ .PROC_ZOMBIE := by
  obtain ⟨q, hq, hmem⟩ := h.family.forest.parent p hp
  exact ⟨q, hq, hmem, h.family.live p hp q hq⟩

/-- A zombie has no children. -/
theorem Ok.zombie_leaf (h : Ok s) (hp : s.state p = .PROC_ZOMBIE) :
    ∀ c ∈ s.procList, s.family.parent c ≠ some p :=
  fun c hc hpar => h.family.live c hc p hpar hp

/-- The process that runs. -/
theorem State.Running.mem (hr : s.Running) (h : Ok s) : s.current ∈ s.procList :=
  h.sched.known.resolve_left hr.ne_idle

/-- The other fields are free. -/
theorem Ok.ofSame (h : Ok s) (needResched exiting : ℕ → Bool) (mm filesp : ℕ → Option ℕ)
    (exitCode mmCount : ℕ → ℤ) (timeSlice : ℕ → ℕ) (procNum : ℕ) (tables : Tables) :
    Ok { s with needResched, exiting, mm, filesp, exitCode, mmCount, timeSlice, procNum, tables } :=
  ⟨h.family, h.pids, h.sched, h.waits, h.timers, h.running, h.init, h.count, h.allocNodup, h.alloc⟩

/-! ### Processes that are not there -/

section Congr

variable {idle init : ℕ} {procs : List ℕ} {state state' : ℕ → ProcState}

/-- Only the fields of the processes that are there matter. -/
theorem FamilyOk.congr {family family' : Links ℕ} (h : FamilyOk family idle init procs state)
    (hfirst : ∀ p, p = idle ∨ p ∈ procs → family'.first p = family.first p)
    (hsame : ∀ c ∈ procs, family'.parent c = family.parent c ∧
      family'.younger c = family.younger c ∧ family'.older c = family.older c)
    (hstate : ∀ p, p = idle ∨ p ∈ procs → state' p = .PROC_ZOMBIE → state p = .PROC_ZOMBIE) :
    FamilyOk family' idle init procs state' := by
  refine ⟨h.forest.congr hfirst hsame, h.nodup, h.elders.congr fun c hc => Or.inl (hsame c hc).1, ?_,
    ?_⟩
  · rw [(hsame init h.elders.init_mem).1, h.initParent]
  · intro c hc p hp hz
    rw [(hsame c hc).1] at hp
    obtain ⟨q, hq, hmem⟩ := h.forest.parent c hc
    rw [hp] at hq
    cases hq
    exact h.live c hc p hp (hstate p hmem hz)

theorem PidsOk.congr {pid pid' : ℕ → ℤ} {hash : ℕ → List ℕ} {lastPid nextSafe : ℤ}
    (h : PidsOk pid procs hash lastPid nextSafe) (hsame : ∀ p ∈ procs, pid' p = pid p) :
    PidsOk pid' procs hash lastPid nextSafe := by
  refine ⟨?_, ?_, h.hashNodup, ?_, ?_⟩
  · intro p hp
    rw [hsame p hp]
    exact h.range p hp
  · intro p hp q hq
    rw [hsame p hp, hsame q hq]
    exact h.inj p hp q hq
  · intro i p
    rw [h.hash]
    refine and_congr_right fun hp => ?_
    rw [hsame p hp]
  · rw [List.map_congr_left hsame]
    exact h.next

theorem SchedOk.congr {run : List ℕ} {rq rq' : ℕ → Bool} {current : ℕ}
    (h : SchedOk run rq procs state current idle) (hrq : ∀ p ∈ procs, rq' p = rq p)
    (hsame : ∀ p, p = idle ∨ p ∈ procs → state' p = state p) :
    SchedOk run rq' procs state' current idle := by
  refine ⟨h.nodup, fun p hp => ?_, ?_, h.known, ?_, h.idle_notMem⟩
  · rw [hrq p ((h.mem p).mp hp).1]
    exact h.linked p hp
  · intro p
    rw [h.mem]
    refine and_congr_right fun hp => ?_
    rw [hsame p (Or.inr hp)]
  · rw [hsame idle (Or.inl rfl)]
    exact h.idleRunnable

theorem WaitsOk.congr {waitState waitState' : ℕ → WaitState} {place place' : ℕ → Place}
    {parent parent' : ℕ → Option ℕ} {pid pid' : ℕ → ℤ}
    (h : WaitsOk waitState state place parent pid procs idle)
    (hsame : ∀ p, p = idle ∨ p ∈ procs → waitState' p = waitState p ∧ state' p = state p ∧
      place' p = place p) (hprocs : ∀ c ∈ procs, parent' c = parent c ∧ pid' c = pid c) :
    WaitsOk waitState' state' place' parent' pid' procs idle := by
  refine ⟨?_, ?_, ?_, ?_⟩
  · intro p hp hne
    rw [(hsame p hp).2.1]
    exact h.sleeping p hp ((hsame p hp).1 ▸ hne)
  · intro p hp hchild
    obtain ⟨hwait, -, hplace⟩ := hsame p (Or.inr hp)
    obtain ⟨n, hn, hnone⟩ := h.child p hp (hwait.symm.trans hchild)
    refine ⟨n, hplace.trans hn, ?_⟩
    intro c hc hpar hz
    obtain ⟨hparent, hpid⟩ := hprocs c hc
    rw [hpid]
    exact hnone c hc (hparent.symm.trans hpar) ((hsame c (Or.inr hc)).2.1.symm.trans hz)
  · exact (hsame idle (Or.inl rfl)).2.2.trans h.idlePlace
  · intro p hp
    rw [(hsame p (Or.inr hp)).2.1]
    exact h.born p hp

theorem TimersOk.congr {timers : List (ℕ × ℕ)} {waitState waitState' : ℕ → WaitState}
    {place place' : ℕ → Place} (h : TimersOk timers procs place state waitState)
    (hsame : ∀ p ∈ procs, waitState' p = waitState p ∧ state' p = state p ∧ place' p = place p) :
    TimersOk timers procs place' state' waitState' := by
  refine ⟨h.nodup, ?_, h.head, ?_⟩
  · intro p hp
    obtain ⟨hmem, hin, hz⟩ := h.mem p hp
    obtain ⟨-, hstate, hplace⟩ := hsame p hmem
    exact ⟨hmem, hplace.trans hin, hstate ▸ hz⟩
  · intro p hp hin
    obtain ⟨hwait, -, hplace⟩ := hsame p hp
    rw [hwait]
    exact h.wait p hp (hplace.symm.trans hin)

end Congr

/-! ### Processes wake up -/

/-- Some sleeping processes become runnable. -/
structure Wakes (s s' : State) : Prop where
  frame : s' = { s with
    state := s'.state
    waitState := s'.waitState
    runList := s'.runList
    rq := s'.rq
    timeSlice := s'.timeSlice
    procNum := s'.procNum }
  each : ∀ q, s'.state q = s.state q ∧ s'.waitState q = s.waitState q ∨
    s.state q = .PROC_SLEEPING ∧ s'.state q = .PROC_RUNNABLE ∧ s'.waitState q = .none

theorem Wakes.refl (s : State) : Wakes s s := ⟨rfl, fun _ => Or.inl ⟨rfl, rfl⟩⟩

theorem Wakes.trans {s'' : State} (h : Wakes s s') (h' : Wakes s' s'') : Wakes s s'' := by
  refine ⟨?_, ?_⟩
  · rw [h'.frame, h.frame]
  · intro q
    rcases h'.each q with ⟨hstate', hwait'⟩ | ⟨hsleep, hstate', hwait'⟩
    · rw [hstate', hwait']
      exact h.each q
    · rcases h.each q with ⟨hstate, -⟩ | ⟨-, hstate, -⟩
      · exact Or.inr ⟨hstate ▸ hsleep, hstate', hwait'⟩
      · exact absurd (hstate.symm.trans hsleep) (by decide)

/-- The state with the fields that change. -/
theorem Wakes.explicit (h : Wakes s s') : ∃ state waitState runList rq timeSlice procNum, s' = { s with
    state := state, waitState := waitState, runList := runList, rq := rq, timeSlice := timeSlice
    procNum := procNum } := ⟨_, _, _, _, _, _, h.frame⟩

theorem Wakes.zombie (h : Wakes s s') {q : ℕ} : s'.state q = .PROC_ZOMBIE ↔ s.state q = .PROC_ZOMBIE := by
  rcases h.each q with ⟨hstate, -⟩ | ⟨hsleep, hstate, -⟩
  · rw [hstate]
  · rw [hstate, hsleep]
    decide

theorem ne_none_of_child {ws : WaitState} (h : ws = .WT_CHILD) : ws ≠ .none := by
  rw [h]
  decide

/-- A process still waits for what it waited for. -/
theorem Wakes.waiting (h : Wakes s s') {q : ℕ} (hne : s'.waitState q ≠ .none) :
    s'.waitState q = s.waitState q ∧ s'.state q = s.state q := by
  rcases h.each q with ⟨hstate, hwait⟩ | ⟨-, -, hwait⟩
  · exact ⟨hwait, hstate⟩
  · exact absurd hwait hne

/-- Waking processes keeps the invariant, once they are in the run queue. -/
theorem Ok.wakes (h : Ok s) (hw : Wakes s s')
    (hsched : SchedOk s'.runList s'.rq s.procList s'.state s.current s.idleproc) : Ok s' := by
  have hwaits : WaitsOk s'.waitState s'.state s.place s.family.parent s.pid s.procList
      s.idleproc := by
    refine ⟨?_, ?_, h.waits.idlePlace, ?_⟩
    · intro p hp hne
      obtain ⟨hwait, hstate⟩ := hw.waiting hne
      rw [hstate]
      exact h.waits.sleeping p hp (hwait ▸ hne)
    · intro p hp hchild
      obtain ⟨hwait, -⟩ := hw.waiting (ne_none_of_child hchild)
      obtain ⟨n, hplace, hnone⟩ := h.waits.child p hp (hwait ▸ hchild)
      exact ⟨n, hplace, fun c hc hpar hz => hnone c hc hpar (hw.zombie.mp hz)⟩
    · intro p hp
      rcases hw.each p with ⟨hstate, -⟩ | ⟨-, hstate, -⟩
      · rw [hstate]
        exact h.waits.born p hp
      · rw [hstate]
        decide
  have htimers : TimersOk s.timerList s.procList s.place s'.state s'.waitState := by
    refine ⟨h.timers.nodup, ?_, h.timers.head, ?_⟩
    · intro p hp
      obtain ⟨hmem, hplace, hstate⟩ := h.timers.mem p hp
      exact ⟨hmem, hplace, fun hz => hstate (hw.zombie.mp hz)⟩
    · intro p hp hplace
      rcases hw.each p with ⟨-, hwait⟩ | ⟨-, -, hwait⟩
      · rw [hwait]
        exact h.timers.wait p hp hplace
      · exact Or.inl hwait
  have hrunning : s.atSchedule = false → s'.state s.current = .PROC_RUNNABLE := by
    intro hat
    rcases hw.each s.current with ⟨hstate, -⟩ | ⟨-, hstate, -⟩
    · exact hstate.trans (h.running hat)
    · exact hstate
  have hfamily : FamilyOk s.family s.idleproc s.initproc s.procList s'.state :=
    h.family.congr (fun _ _ => rfl) (fun _ _ => ⟨rfl, rfl, rfl⟩) fun _ _ => hw.zombie.mp
  rw [hw.frame]
  exact ⟨hfamily, h.pids, hsched, hwaits, htimers, hrunning, fun hz => h.init (hw.zombie.mp hz),
    h.count, h.allocNodup, h.alloc⟩

end Ucore.Proc
