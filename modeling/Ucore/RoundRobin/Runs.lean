import Ucore.RoundRobin.Invariant

/-!
# Runs of the list schedulers

The processes are created, sleep, are woken up, exit, are freed, yield and change their priority, the timer
ticks in the kernel and in user mode, and `schedule` is called at any time.  Each of these steps keeps `Inv`,
and none of them fails (`Inv.step`).
-/

namespace Ucore.RoundRobin

open Function Fallible Relation Transition
open Stride (MAX_TIME_SLICE ProcState)

variable {c : SchedClass} {slice : ℤ → Proc → ℤ} {s s' : State} {p q : ℕ}

/-- What the processes and the timer do.  `sleep` and `exit` are the assignments to `current->state`;
`schedule` follows them.  `tick` is the timer in the kernel, `timer` the timer in user mode, and `check` the end
of another trap from user mode or the loop of `cpu_idle`. -/
inductive Op
  | fork (p : ℕ)
  | wakeup (p : ℕ)
  | sleep
  | exit
  | tick
  | timer
  | check
  | yield
  | setPriority (priority : BitVec 32)
  | free (p : ℕ)
  | schedule
  deriving DecidableEq, Repr

def Op.run (c : SchedClass) (s : State) : Op → Except Panic State
  | .fork p => s.doFork c p
  | .wakeup p => s.wakeupProc c p
  | .sleep => .ok (s.setState .sleeping)
  | .exit => .ok (s.setState .zombie)
  | .tick => .ok (s.schedClassProcTick c s.current)
  | .timer => s.timer c
  | .check => s.checkResched c
  | .yield => .ok s.doYield
  | .setPriority priority => .ok (s.lab6SetPriority priority)
  | .free p => .ok (s.freeProc p)
  | .schedule => s.schedule c

/-- A new process gets free memory, a zombie is not woken up, `idleproc` does not sleep or exit and stays in the
kernel, and the process that is freed is a zombie which does not run. -/
def Op.Enabled (s : State) : Op → Prop
  | .fork p => (s.proc p).allocated = false
  | .wakeup p => (s.proc p).allocated = true ∧ (s.proc p).state ≠ .zombie
  | .sleep => s.current ≠ s.idleproc
  | .exit => s.current ≠ s.idleproc
  | .timer => s.current ≠ s.idleproc
  | .free p => (s.proc p).state = .zombie ∧ p ≠ s.current
  | _ => True

/-- One step. -/
def Next (c : SchedClass) (s : State) (op : Op) (s' : State) : Prop := op.Enabled s ∧ op.run c s = .ok s'

/-- The states of all runs from the start of the kernel. -/
def Reachable (c : SchedClass) (s : State) : Prop :=
  ∃ (s₀ : State) (idle : ℕ), ReflTransGen (fun s s' => ∃ op, Next c s op s') ((s₀.schedInit c).procInit idle) s

/-! ### One step -/

/-- A process that is not in the list changes. -/
theorem Inv.setProc (h : Inv slice s) {P : Proc} (hp : p ∉ s.runList) (hrq : P.rq = false)
    (hcurrent : p = s.current → P.allocated = true)
    (hidle : p = s.idleproc → P.allocated = true ∧ P.state = .runnable)
    (hjoins : P.allocated = true → P.state = .runnable → p = s.current ∨ p = s.idleproc)
    (hresched : p ≠ s.current → P.needResched = false) : Inv slice (s.setProc p P) := by
  have hself := s.setProc_self p P
  have hother : ∀ q, q ≠ p → (s.setProc p P).proc q = s.proc q := fun q hq => s.setProc_of_ne P hq
  refine ⟨h.nodup, fun q => ?_, h.procNum, h.maxTimeSlice, ⟨h.current.1, ?_⟩, ⟨h.idleproc.1, ?_⟩, fun q hq => ?_,
    fun q halloc hrun hcur hne => ?_, fun q hq => ?_⟩
  · by_cases hqp : q = p
    · subst hqp
      rw [hself, hrq]
      exact iff_of_false Bool.false_ne_true hp
    · rw [hother q hqp]
      exact h.rq q
  · show ((s.setProc p P).proc s.current).allocated = true
    by_cases hcp : s.current = p
    · rw [hcp, hself]
      exact hcurrent hcp.symm
    · rw [hother _ hcp]
      exact h.current.2
  · show ((s.setProc p P).proc s.idleproc).allocated = true ∧ ((s.setProc p P).proc s.idleproc).state = .runnable
    by_cases hip : s.idleproc = p
    · rw [hip, hself]
      exact hidle hip.symm
    · rw [hother _ hip]
      exact h.idleproc.2
  · have hqp : q ≠ p := fun heq => hp (heq ▸ hq)
    rw [hother q hqp]
    exact h.queued q hq
  · by_cases hqp : q = p
    · subst hqp
      rw [hself] at halloc hrun
      exact absurd (hjoins halloc hrun) (not_or.mpr ⟨hcur, hne⟩)
    · rw [hother q hqp] at halloc hrun
      exact h.runnable q halloc hrun hcur hne
  · by_cases hqp : q = p
    · subst hqp
      rw [hself]
      exact hresched hq
    · rw [hother q hqp]
      exact h.needResched q hq

/-- `current` changes, and stays as it is where the others look. -/
theorem Inv.setCurrent (h : Inv slice s) {P : Proc} (hrq : P.rq = (s.proc s.current).rq)
    (halloc : P.allocated = (s.proc s.current).allocated)
    (hidle : s.current = s.idleproc → P.state = (s.proc s.current).state) : Inv slice (s.setProc s.current P) := by
  refine h.setProc h.current.1 (hrq.trans h.rq_current) (fun _ => halloc.trans h.current.2) (fun heq => ?_)
    (fun _ _ => .inl rfl) fun hne => absurd rfl hne
  rw [halloc, hidle heq, heq]
  exact h.idleproc.2

/-- A process joins the list. -/
theorem Inv.join (hc : IsList c slice) (h : Inv slice s) {P : Proc} (hp : p ∉ s.runList) (hcur : p ≠ s.current)
    (hidle : p ≠ s.idleproc) (halloc : P.allocated = true) (hrun : P.state = .runnable)
    (hresched : P.needResched = false) : Inv slice ((s.setProc p P).link slice p) := by
  have hself : ((s.setProc p P).link slice p).proc p =
      { P with timeSlice := slice s.maxTimeSlice P, rq := true } := by
    refine (update_self _ _ _).trans ?_
    rw [s.setProc_self p P]
    rfl
  have hother : ∀ q, q ≠ p → ((s.setProc p P).link slice p).proc q = s.proc q := fun q hq =>
    (update_of_ne hq _ _).trans (s.setProc_of_ne P hq)
  have hmem : ∀ q, q ∈ ((s.setProc p P).link slice p).runList ↔ q ∈ s.runList ∨ q = p := by
    intro q
    show q ∈ s.runList ++ [p] ↔ _
    rw [List.mem_append, List.mem_singleton]
  refine ⟨?_, fun q => ?_, ?_, h.maxTimeSlice, ⟨?_, ?_⟩, ⟨?_, ?_⟩, fun q hq => ?_,
    fun q hqalloc hqrun hqcur hqidle => ?_, fun q hq => ?_⟩
  · show (s.runList ++ [p]).Nodup
    exact h.nodup.append (List.nodup_singleton p) (by simpa using hp)
  · rw [hmem]
    by_cases hqp : q = p
    · subst hqp
      rw [hself]
      exact iff_of_true rfl (.inr rfl)
    · rw [hother q hqp, or_iff_left hqp]
      exact h.rq q
  · show s.procNum + 1 = (s.runList ++ [p]).length
    rw [List.length_append, h.procNum]
    rfl
  · rw [hmem, not_or]
    exact ⟨h.current.1, hcur.symm⟩
  · exact (congrArg Proc.allocated (hother s.current hcur.symm)).trans h.current.2
  · rw [hmem, not_or]
    exact ⟨h.idleproc.1, hidle.symm⟩
  · have hi : ((s.setProc p P).link slice p).proc s.idleproc = s.proc s.idleproc := hother _ hidle.symm
    show (((s.setProc p P).link slice p).proc s.idleproc).allocated = true ∧ _
    rw [hi]
    exact ⟨h.idleproc.2.1, (congrArg Proc.state hi).trans h.idleproc.2.2⟩
  · by_cases hqp : q = p
    · subst hqp
      rw [hself]
      exact ⟨halloc, hrun, hc.congr _ _ _ rfl⟩
    · rw [hother q hqp]
      exact h.queued q (((hmem q).mp hq).resolve_right hqp)
  · rw [hmem]
    by_cases hqp : q = p
    · exact .inr hqp
    · rw [hother q hqp] at hqalloc hqrun
      exact .inl (h.runnable q hqalloc hqrun hqcur hqidle)
  · by_cases hqp : q = p
    · subst hqp
      rw [hself]
      exact hresched
    · rw [hother q hqp]
      exact h.needResched q hq

/-- What `wakeup_proc` does: nothing, or `current` is runnable again, or a process joins the list. -/
theorem Inv.wakeupProc (hc : IsList c slice) (h : Inv slice s) (hzombie : (s.proc p).state ≠ .zombie) :
    (s.proc p).state = .runnable ∧ s.wakeupProc c p = .ok s ∨
      (p = s.current ∧ s.wakeupProc c p = .ok (s.setProc p { s.proc p with state := .runnable })) ∨
        p ∉ s.runList ∧ p ≠ s.current ∧ p ≠ s.idleproc ∧
          s.wakeupProc c p = .ok ((s.setProc p { s.proc p with state := .runnable }).link slice p) := by
  rw [State.wakeupProc, require_pos hzombie]
  by_cases hrun : (s.proc p).state = .runnable
  · exact .inl ⟨hrun, if_neg (not_not.mpr hrun)⟩
  · by_cases hcur : p = s.current
    · refine .inr (.inl ⟨hcur, (if_pos hrun).trans ?_⟩)
      exact if_neg (not_not.mpr hcur)
    · have hp : p ∉ s.runList := fun hmem => hrun (h.queued p hmem).2.1
      have hidle : p ≠ s.idleproc := fun heq => hrun (heq ▸ h.idleproc.2.2)
      refine .inr (.inr ⟨hp, hcur, hidle, (if_pos hrun).trans ((if_pos hcur).trans ?_)⟩)
      rw [State.schedClassEnqueue, hc.enqueue]
      refine (if_pos hidle).trans (listEnqueue_ok ?_)
      rw [State.setProc_self]
      exact Bool.not_eq_true _ ▸ (h.rq p).not.mpr hp

/-- The list behind the process that is picked. -/
theorem Scheduled.queue_eq (hs : Scheduled slice s s') :
    s.queue = [] ∧ s'.runList = [] ∧ s'.current = s.idleproc ∨ s.queue = s'.current :: s'.runList := by
  have hcur := hs.current
  have hlist := hs.runList
  cases hqueue : s.queue with
  | nil =>
    rw [hqueue] at hcur hlist
    exact .inl ⟨rfl, hlist, hcur⟩
  | cons a as =>
    rw [hqueue] at hcur hlist
    exact .inr (by rw [hcur, hlist]; rfl)

theorem Inv.of_mem_queue (h : Inv slice s) (hp : p ∈ s.queue) :
    (s.proc p).allocated = true ∧ (s.proc p).state = .runnable := by
  by_cases hcur : p = s.current
  · subst hcur
    exact ⟨h.current.2, (h.current_mem_queue.mp hp).1⟩
  · have hq := h.queued p ((mem_queue_of_ne hcur).mp hp)
    exact ⟨hq.1, hq.2.1⟩

/-- `schedule` keeps the invariant. -/
theorem Scheduled.inv (hc : IsList c slice) (h : Inv slice s) (hs : Scheduled slice s s') : Inv slice s' := by
  have hsub : ∀ q ∈ s'.runList, q ∈ s.queue := fun q hq => List.mem_of_mem_tail (hs.runList ▸ hq)
  have hnext : s'.current ∉ s'.runList ∧ (s.proc s'.current).allocated = true := by
    rcases hs.queue_eq with ⟨-, hlist, hcur⟩ | heq
    · rw [hlist, hcur]
      exact ⟨List.not_mem_nil, h.idleproc.2.1⟩
    · have hnd := h.nodup_queue
      rw [heq] at hnd
      exact ⟨(List.nodup_cons.mp hnd).1, (h.of_mem_queue (heq ▸ List.mem_cons_self)).1⟩
  have hrest : ∀ q, q ≠ s'.current → (q ∈ s.queue ↔ q ∈ s'.runList) := by
    intro q hq
    rcases hs.queue_eq with ⟨hnil, hlist, -⟩ | heq
    · rw [hnil, hlist]
    · rw [heq, List.mem_cons, or_iff_right hq]
  refine ⟨?_, fun q => ?_, hs.procNum.trans (congrArg _ hs.runList.symm), hs.maxTimeSlice.trans h.maxTimeSlice,
    ⟨hnext.1, ?_⟩, ⟨?_, ?_⟩, fun q hq => ?_, fun q halloc hrun hcur hne => ?_, fun q hq => ?_⟩
  · rw [hs.runList]
    exact h.nodup_queue.sublist (List.tail_sublist _)
  · rw [hs.proc, State.scheduledProc]
    by_cases hq : q = s'.current
    · subst hq
      rw [if_pos rfl]
      exact iff_of_false Bool.false_ne_true hnext.1
    · rw [if_neg hq, decide_eq_true_iff]
      exact hrest q hq
  · rw [hs.proc]
    exact hnext.2
  · rw [hs.idleproc]
    exact fun hmem => h.idle_not_mem_queue (hsub _ hmem)
  · rw [hs.idleproc, hs.proc]
    exact h.idleproc.2
  · obtain ⟨halloc, hrun⟩ := h.of_mem_queue (hsub q hq)
    rw [hs.proc, hs.maxTimeSlice]
    refine ⟨halloc, hrun, ?_⟩
    rw [hc.congr s.maxTimeSlice (s.scheduledProc slice s'.current q) (s.proc q) rfl]
    show (if q = s.current ∧ q ∈ s.queue then slice s.maxTimeSlice (s.proc q) else (s.proc q).timeSlice) = _
    by_cases hcur : q = s.current
    · exact if_pos ⟨hcur, hsub q hq⟩
    · rw [if_neg fun hand => hcur hand.1]
      exact (h.queued q ((mem_queue_of_ne hcur).mp (hsub q hq))).2.2
  · rw [hs.proc] at halloc hrun
    rw [hs.idleproc] at hne
    refine (hrest q hcur).mp ?_
    by_cases hq : q = s.current
    · subst hq
      exact h.current_mem_queue.mpr ⟨hrun, hne⟩
    · exact (mem_queue_of_ne hq).mpr (h.runnable q halloc hrun hq hne)
  · rw [hs.proc]
    show (if q = s.current then false else (s.proc q).needResched) = false
    by_cases hcur : q = s.current
    · exact if_pos hcur
    · exact (if_neg hcur).trans (h.needResched q hcur)

/-- `sched_class_proc_tick` of `current`. -/
theorem Inv.procTick (hc : IsList c slice) (h : Inv slice s) : Inv slice (s.schedClassProcTick c s.current) := by
  rw [State.schedClassProcTick]
  split
  · obtain ⟨timeSlice, needResched, htick⟩ := hc.procTick s.current s
    rw [htick]
    exact h.setCurrent rfl rfl fun _ => rfl
  · exact h.setCurrent rfl rfl fun _ => rfl

theorem Inv.checkResched (hc : IsList c slice) (h : Inv slice s) :
    (s.proc s.current).needResched = false ∧ s.checkResched c = .ok s ∨
      (s.proc s.current).needResched = true ∧ ∃ s', s.checkResched c = .ok s' ∧ Scheduled slice s s' := by
  rw [State.checkResched]
  by_cases hresched : (s.proc s.current).needResched = true
  · rw [if_pos hresched]
    exact .inr ⟨hresched, h.schedule hc⟩
  · rw [if_neg hresched]
    exact .inl ⟨Bool.not_eq_true _ ▸ hresched, rfl⟩

/-- **One step** goes through and keeps the invariant. -/
theorem Inv.step (hc : IsList c slice) (h : Inv slice s) {op : Op} (hop : op.Enabled s) :
    ∃ s', op.run c s = .ok s' ∧ Inv slice s' := by
  have hcheck : ∀ m, Inv slice m → ∃ s', m.checkResched c = .ok s' ∧ Inv slice s' := by
    intro m hm
    rcases hm.checkResched hc with ⟨-, hrun⟩ | ⟨-, s', hrun, hs⟩
    · exact ⟨m, hrun, hm⟩
    · exact ⟨s', hrun, hs.inv hc hm⟩
  cases op with
  | fork p =>
    have hp : p ∉ s.runList := fun hmem => Bool.false_ne_true (hop.symm.trans (h.queued p hmem).1)
    have hcur : p ≠ s.current := fun heq => Bool.false_ne_true (hop.symm.trans (heq ▸ h.current.2))
    have hidle : p ≠ s.idleproc := fun heq => Bool.false_ne_true (hop.symm.trans (heq ▸ h.idleproc.2.1))
    have hself := s.setProc_self p ⟨true, .uninit, false, 0, false, 0, 1⟩
    have hinv : Inv slice (s.allocProc p) :=
      h.setProc hp rfl (fun heq => absurd heq hcur) (fun heq => absurd heq hidle) (fun _ hrun => by cases hrun)
        fun _ => rfl
    have halloc : ((s.allocProc p).proc p).allocated = true := congrArg Proc.allocated hself
    have hstate : ((s.allocProc p).proc p).state = .uninit := congrArg Proc.state hself
    rcases hinv.wakeupProc hc (by rw [hstate]; decide) with ⟨hrun, -⟩ | ⟨heq, -⟩ | ⟨hp', hcur', hidle', hrun⟩
    · exact absurd (hstate.symm.trans hrun) (by decide)
    · exact absurd heq hcur
    · exact ⟨_, hrun, hinv.join hc hp' hcur' hidle' halloc rfl (congrArg Proc.needResched hself)⟩
  | wakeup p =>
    rcases h.wakeupProc hc hop.2 with ⟨-, hrun⟩ | ⟨heq, hrun⟩ | ⟨hp, hcur, hidle, hrun⟩
    · exact ⟨s, hrun, h⟩
    · subst heq
      exact ⟨_, hrun, h.setCurrent rfl rfl fun heq => (heq ▸ h.idleproc.2.2).symm⟩
    · exact ⟨_, hrun, h.join hc hp hcur hidle hop.1 rfl (h.needResched p hcur)⟩
  | sleep => exact ⟨_, rfl, h.setCurrent rfl rfl fun heq => absurd heq hop⟩
  | exit => exact ⟨_, rfl, h.setCurrent rfl rfl fun heq => absurd heq hop⟩
  | tick => exact ⟨_, rfl, h.procTick hc⟩
  | timer => exact hcheck _ (h.procTick hc)
  | check => exact hcheck s h
  | yield => exact ⟨_, rfl, h.setCurrent rfl rfl fun _ => rfl⟩
  | setPriority priority => exact ⟨_, rfl, h.setCurrent rfl rfl fun _ => rfl⟩
  | free p =>
    have hp : p ∉ s.runList := fun hmem => absurd (hop.1.symm.trans (h.queued p hmem).2.1) (by decide)
    have hidle : p ≠ s.idleproc := fun heq => absurd (hop.1.symm.trans (heq ▸ h.idleproc.2.2)) (by decide)
    exact ⟨_, rfl, h.setProc hp (Bool.not_eq_true _ ▸ (h.rq p).not.mpr hp) (fun heq => absurd heq hop.2)
      (fun heq => absurd heq hidle) (fun halloc => by cases halloc) fun hne => h.needResched p hne⟩
  | schedule =>
    obtain ⟨s', hrun, hs⟩ := h.schedule hc
    exact ⟨s', hrun, hs.inv hc h⟩

/-! ### A run -/

theorem inv_procInit (hc : IsList c slice) (s₀ : State) (idle : ℕ) :
    Inv slice ((s₀.schedInit c).procInit idle) := by
  rw [State.schedInit, hc.init]
  have hproc : ∀ q, q ≠ idle → ((State.listInit { s₀ with maxTimeSlice := MAX_TIME_SLICE }).procInit idle).proc q =
      ⟨false, .uninit, false, 0, false, 0, 1⟩ := fun q hq => if_neg hq
  have hidle : ((State.listInit { s₀ with maxTimeSlice := MAX_TIME_SLICE }).procInit idle).proc idle =
      ⟨true, .runnable, false, 0, true, 0, 1⟩ := if_pos rfl
  refine ⟨List.nodup_nil, fun q => ?_, rfl, rfl, ⟨List.not_mem_nil, congrArg Proc.allocated hidle⟩,
    ⟨List.not_mem_nil, congrArg Proc.allocated hidle, congrArg Proc.state hidle⟩, fun q hq => (List.not_mem_nil hq).elim,
    fun q halloc _ hcur _ => ?_, fun q hq => congrArg Proc.needResched (hproc q hq)⟩
  · refine iff_of_false ?_ List.not_mem_nil
    by_cases hq : q = idle
    · rw [hq, hidle]
      exact Bool.false_ne_true
    · rw [hproc q hq]
      exact Bool.false_ne_true
  · rw [hproc q hcur] at halloc
    exact absurd halloc Bool.false_ne_true

theorem Inv.next (hc : IsList c slice) (h : Inv slice s) {op : Op} (hnext : Next c s op s') : Inv slice s' := by
  obtain ⟨s'', hrun, hinv⟩ := h.step hc hnext.1
  obtain rfl := Except.ok.inj (hrun.symm.trans hnext.2)
  exact hinv

theorem Reachable.inv (hc : IsList c slice) (h : Reachable c s) : Inv slice s := by
  obtain ⟨s₀, idle, hrun⟩ := h
  refine invariant (fun a b ha hab => ?_) hrun (inv_procInit hc s₀ idle)
  obtain ⟨op, hnext⟩ := hab
  exact ha.next hc hnext

/-! ### Runs that can be computed -/

instance (s : State) : (op : Op) → Decidable (op.Enabled s)
  | .fork _ => inferInstanceAs (Decidable (_ = _))
  | .wakeup _ => inferInstanceAs (Decidable (_ ∧ _))
  | .sleep => inferInstanceAs (Decidable (_ ≠ _))
  | .exit => inferInstanceAs (Decidable (_ ≠ _))
  | .timer => inferInstanceAs (Decidable (_ ≠ _))
  | .free _ => inferInstanceAs (Decidable (_ ∧ _))
  | .tick => inferInstanceAs (Decidable True)
  | .check => inferInstanceAs (Decidable True)
  | .yield => inferInstanceAs (Decidable True)
  | .setPriority _ => inferInstanceAs (Decidable True)
  | .schedule => inferInstanceAs (Decidable True)

/-- The state after the steps `ops`, if all are enabled and `ok` holds of each state that is reached. -/
def State.play (c : SchedClass) (ok : State → Bool) : List Op → State → Option State
  | [], s => some s
  | op :: ops, s =>
    if op.Enabled s then
      match op.run c s with
      | .ok s' => if ok s' = true then s'.play c ok ops else none
      | .error _ => none
    else none

theorem trace_play {ok : State → Bool} (ops : List Op) (h : s.play c ok ops = some s') :
    Trace (fun s op s' => Next c s op s' ∧ ok s' = true) s ops s' := by
  induction ops generalizing s with
  | nil =>
    obtain rfl := Option.some.inj h
    exact .nil
  | cons op ops ih =>
    rw [State.play] at h
    split at h
    · rename_i hop
      split at h
      · rename_i m hrun
        split at h
        · rename_i hok
          exact .cons ⟨⟨hop, hrun⟩, hok⟩ (ih h)
        · cases h
      · cases h
    · cases h

/-- The kernel after `sched_init` and `proc_init`; process 0 is `idleproc`. -/
def boot (c : SchedClass) : State :=
  ((⟨fun _ => ⟨false, .uninit, false, 0, false, 0, 1⟩, [], 0, 0, 0, 0⟩ : State).schedInit c).procInit 0

theorem reachable_play {ok : State → Bool} {ops : List Op} (h : (boot c).play c ok ops = some s) : Reachable c s :=
  ⟨_, 0, (trace_play ops h).reflTransGen.lift id fun _ _ ⟨op, hstep⟩ => ⟨op, hstep.1⟩⟩

end Ucore.RoundRobin
