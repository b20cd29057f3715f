import Ucore.Proc.Boot

/-!
# Runs of the processes

* **`process_tree`**: in every state reached the lists of children, `proc_list` and `hash_list` have
  exactly the processes that were forked and not freed, and nobody sleeps for a child while it has a
  zombie to free.  A process leaves the lists only when its parent frees it in `do_wait`.
-/

namespace Ucore.Proc

open Function Relation Fallible Forest State

variable {s s' s₀ : State} {op : Op} {ret : Option ℤ} {p c : ℕ}

theorem Next.ok (h : Ok s) (hn : s.Next s') : Ok s' := by
  obtain ⟨op, ret, hen, hrun⟩ := hn
  exact (step_ok h hen hrun).ok

/-- The invariant holds in every state reached. -/
theorem ok_of_run (hboot : s₀.Booted) (hrun : ReflTransGen State.Next s₀ s) : Ok s :=
  Transition.invariant (P := Ok) (fun _ _ => Next.ok) hrun hboot.ok

/-- The processes and their lists are in order. -/
structure TreeOk (s : State) : Prop where
  /-- From `cptr`, `optr` visits the children, once each, and `yptr` goes back. -/
  chain : ∀ p, s.Known p → ∃ l, Children s.family { c | c ∈ s.procList } p none l
  known : ∀ p, p ∈ s.allocated ↔ s.Known p
  nodup : s.procList.Nodup
  hash : ∀ i p, p ∈ s.hashList i ↔ p ∈ s.procList ∧ pidHashfn (s.pid p) = i
  hashNodup : ∀ i, (s.hashList i).Nodup
  pids : ∀ p ∈ s.procList, ∀ q ∈ s.procList, s.pid p = s.pid q → p = q
  count : s.nrProcess = s.procList.length + 1
  zombie : ∀ c ∈ s.procList, s.state c = .PROC_ZOMBIE →
    ∃ p, s.family.parent c = some p ∧ s.Known p ∧ s.state p ≠ .PROC_ZOMBIE
  waiting : ∀ p ∈ s.procList, s.state p = .PROC_SLEEPING → s.waitState p = .WT_CHILD →
    ∃ pid, s.place p = .inWait pid ∧ ∀ c ∈ s.procList, s.family.parent c = some p →
      s.state c = .PROC_ZOMBIE → ¬ Accepts pid (s.pid c)

theorem Ok.treeOk (h : Ok s) : TreeOk s where
  chain := h.family.forest.children
  known := h.alloc
  nodup := h.family.nodup
  hash := h.pids.hash
  hashNodup := h.pids.hashNodup
  pids := h.pids.inj
  count := h.count
  zombie _ hc _ := h.parent hc
  waiting p hp _ := h.waits.child p hp

/-- How a step changes `proc_list`. -/
inductive Changes (s : State) (op : Op) (s' : State) (ret : Option ℤ) : Prop
  | none (hsame : s'.procList = s.procList) (hret : ∀ pid, s.Waits op pid → ret ≠ some 0)
  | forked (cloneVm cloneFs : Bool) (answers : ForkAnswers)
      (hop : op = .fork cloneVm cloneFs answers) (hret : ∃ n, ret = some n ∧ 0 < n) (c : ℕ)
      (hc : ¬ s.Known c) (hlist : s'.procList = c :: s.procList)
  /-- `do_wait` of the parent frees the zombie `c`. -/
  | freed (pid : ℤ) (hwaits : s.Waits op pid) (hret : ret = some 0) (c : ℕ) (hc : c ∈ s.procList)
      (hpar : s.family.parent c = some s.current) (hz : s.state c = .PROC_ZOMBIE)
      (hacc : Accepts pid (s.pid c)) (hlist : s'.procList = s.procList.erase c)

theorem Stepped.changes (h : Stepped s op s' ret) : Changes s op s' ret := by
  cases h with
  | quiet h hret => exact .none h.procList hret
  | tables mm mmCount ht =>
    refine .none rfl ?_
    rintro pid (heq | ⟨heq, -⟩)
    · subst heq
      exact nomatch ht
    · subst heq
      exact nomatch ht
  | forked hop c hproc hc mm mmCount t tables ht hstart hn =>
    refine .forked _ _ _ hop ⟨_, rfl, hn⟩ c hc ?_
    rw [hstart.frame]
    rfl
  | exited _ hexit =>
    refine .none ?_ fun _ _ heq => nomatch heq
    rw [hexit.frame]
  | freed hwaits c hc hpar hz hacc hf =>
    refine .freed _ hwaits rfl c hc hpar hz hacc ?_
    rw [hf.frame]

/-- A zombie stays one. -/
theorem Stepped.zombie (h : Stepped s op s' ret) (hc : c ∈ s.procList)
    (hz : s.state c = .PROC_ZOMBIE) : s'.state c = .PROC_ZOMBIE := by
  cases h with
  | quiet h => exact (h.zombie c (Or.inr hc)).mpr hz
  | tables => exact hz
  | forked _ b _ hb mm mmCount t tables _ hstart =>
    have hne : c ≠ b := fun heq => hb (heq ▸ Or.inr hc)
    rw [hstart.frame]
    show update (update s.state b .PROC_UNINIT) b .PROC_RUNNABLE c = _
    rw [update_of_ne hne, update_of_ne hne, hz]
  | exited _ hexit => exact (hexit.zombie c).mpr (Or.inr hz)
  | freed _ b _ _ _ _ hf =>
    rw [hf.frame]
    exact hz

/-- **The tree of processes.** -/
theorem process_tree (hboot : s₀.Booted) (hrun : ReflTransGen State.Next s₀ s) :
    TreeOk s ∧ ∀ op s' ret, s.Enabled op → s.step op = .ok (s', ret) →
      Changes s op s' ret ∧
        ∀ c ∈ s.procList, s.state c = .PROC_ZOMBIE → s'.state c = .PROC_ZOMBIE := by
  have hok := ok_of_run hboot hrun
  refine ⟨hok.treeOk, ?_⟩
  intro op s' ret hen hstep
  have hs := (step_ok hok hen hstep).stepped
  exact ⟨hs.changes, fun c => hs.zombie⟩

/-- The child of `initproc`, which waits, exits. -/
theorem process_tree_zombie : ∃ s : State, TreeOk s ∧ s.procList = [2, 1] ∧
    s.state 2 = .PROC_ZOMBIE ∧ s.state 1 = .PROC_RUNNABLE := by
  refine ⟨_, (process_tree ⟨10, 100, fun _ => 0, fun _ => 0, ⟨some 1, true, none, some 101⟩, _, _,
    ⟨?_, ?_⟩, rfl, 1, rfl, rfl⟩ (.tail (.tail (.tail (.tail (.single
      ⟨.schedule, none, Or.inr rfl, rfl⟩)
      ⟨.fork false true ⟨some 2, true, none, none⟩, some 2, ⟨⟨?_, rfl, rfl⟩, ?_, ?_⟩, rfl⟩)
      ⟨.wait 0 true, none, ⟨?_, rfl, rfl⟩, rfl⟩)
      ⟨.schedule, none, Or.inl rfl, rfl⟩)
      ⟨.exit 0, none, ⟨?_, rfl, rfl⟩, rfl⟩)).1, rfl, rfl, rfl⟩
  · intro p hp
    cases hp
    decide
  · intro p hp
    cases hp
    decide
  · exact fun heq => nomatch heq
  · intro p hp
    cases hp
    decide
  · exact fun p hp => nomatch hp
  · exact fun heq => nomatch heq
  · exact fun heq => nomatch heq

end Ucore.Proc
