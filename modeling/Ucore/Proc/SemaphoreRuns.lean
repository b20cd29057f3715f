import Ucore.Proc.Semaphores

/-!
# Runs with semaphores

A token that `up` gives to a process leaves no trace in `value`: the process is off the queue, and goes
on when `schedule` picks it.  `SemsOk` says where a process in `down` is: asleep in the queue, or woken
with the flags that make `down` return.

* **`semaphores`**: in every state reached the books of each semaphore are right, nobody gets a token
  out of turn, only the `up` that grants a token wakes its process, and no assertion of `up` and `down`
  fails.
-/

namespace Ucore.Proc.Sems

open Function Fallible State Sync Transition

variable {σ : Type} {s s' : Sems σ} {l : σ} {p w : ℕ} {op : Op σ} {e : Event σ}

/-! ### The invariant -/

/-- `w` is asleep in the queue of `l`. -/
structure Sleeps (s : Sems σ) (l : σ) (w : ℕ) : Prop where
  downOf : s.downOf w = some l
  proc : (s.wait w).proc = w
  waitQueue : (s.wait w).waitQueue = some l
  waitLink : (s.wait w).waitLink = some l
  state : s.kernel.state w = .PROC_SLEEPING
  waitState : s.kernel.waitState w = .WT_KSEM

/-- `up` has given a token to `w`. -/
structure Woken (s : Sems σ) (w : ℕ) : Prop where
  waitLink : (s.wait w).waitLink = none
  wakeupFlags : (s.wait w).wakeupFlags = .waitState .WT_KSEM
  state : s.kernel.state w = .PROC_RUNNABLE

theorem Sleeps.congr (h : s.Sleeps l w) (hdown : s'.downOf w = s.downOf w)
    (hwait : s'.wait w = s.wait w) (hstate : s'.kernel.state w = s.kernel.state w)
    (hwaitState : s'.kernel.waitState w = s.kernel.waitState w) : s'.Sleeps l w := by
  refine ⟨hdown.trans h.downOf, ?_, ?_, ?_, hstate.trans h.state, hwaitState.trans h.waitState⟩
  · rw [hwait]
    exact h.proc
  · rw [hwait]
    exact h.waitQueue
  · rw [hwait]
    exact h.waitLink

theorem Woken.congr (h : s.Woken w) (hwait : s'.wait w = s.wait w)
    (hstate : s'.kernel.state w = s.kernel.state w) : s'.Woken w := by
  refine ⟨?_, ?_, hstate.trans h.state⟩
  · rw [hwait]
    exact h.waitLink
  · rw [hwait]
    exact h.wakeupFlags

/-- **The invariant.** -/
structure SemsOk (s : Sems σ) : Prop where
  kernel : Ok s.kernel
  nodup : ∀ l, (s.sem l).waitQueue.Nodup
  asleep : ∀ l, ∀ w ∈ (s.sem l).waitQueue, s.Sleeps l w
  known : ∀ w, s.downOf w ≠ none → w ∈ s.kernel.procList
  woken : ∀ l w, s.downOf w = some l → w ∉ (s.sem l).waitQueue → s.Woken w

/-- A process in `down` is asleep with `WT_KSEM` or can run. -/
theorem SemsOk.awakeOrAsleep (h : SemsOk s) (hw : s.downOf w = some l) :
    s.kernel.state w = .PROC_RUNNABLE ∨
      s.kernel.state w = .PROC_SLEEPING ∧ s.kernel.waitState w = .WT_KSEM := by
  by_cases hmem : w ∈ (s.sem l).waitQueue
  · obtain ⟨-, -, -, -, hstate, hwait⟩ := h.asleep l w hmem
    exact Or.inr ⟨hstate, hwait⟩
  · exact Or.inl (h.woken l w hw hmem).state

theorem SemsOk.notMem (h : SemsOk s) (hw : s.downOf w = none) : w ∉ (s.sem l).waitQueue := by
  intro hmem
  exact nomatch hw.symm.trans (h.asleep l w hmem).downOf

/-- A process that can run is in no queue. -/
theorem SemsOk.notMem_of_runnable (h : SemsOk s) (hw : s.kernel.state w = .PROC_RUNNABLE) :
    w ∉ (s.sem l).waitQueue := by
  intro hmem
  exact nomatch hw.symm.trans (h.asleep l w hmem).state

/-- `p` is asleep in `down`. -/
def Blocked (s : Sems σ) (l : σ) (p : ℕ) : Prop :=
  s.downOf p = some l ∧ s.kernel.state p = .PROC_SLEEPING

theorem SemsOk.blocked_iff (h : SemsOk s) : s.Blocked l p ↔ p ∈ (s.sem l).waitQueue := by
  constructor
  · rintro ⟨hdown, hstate⟩
    by_contra hnot
    exact nomatch hstate.symm.trans (h.woken l p hdown hnot).state
  · intro hmem
    have hs := h.asleep l p hmem
    exact ⟨hs.downOf, hs.state⟩

/-- `wakeup_proc` of a process asleep in `down`. -/
theorem SemsOk.wakeup (h : SemsOk s) (hs : s.Sleeps l w) : ∃ run rq ts n,
    s.kernel.wakeupProc w = .ok { s.kernel with
      state := update s.kernel.state w .PROC_RUNNABLE
      waitState := update s.kernel.waitState w .none
      runList := run
      rq := rq
      timeSlice := ts
      procNum := n } := by
  have hz : s.kernel.state w ≠ .PROC_ZOMBIE := by
    rw [hs.state]
    decide
  have hr : s.kernel.state w ≠ .PROC_RUNNABLE := by
    rw [hs.state]
    decide
  have hmem : w ∈ s.kernel.procList := h.known w (by rw [hs.downOf]; exact nofun)
  have hidle : w ≠ s.kernel.idleproc := ne_of_mem_of_not_mem hmem h.kernel.sched.idle_notMem
  have hrun : w ∉ s.kernel.runList := fun hin => hr ((h.kernel.sched.mem w).mp hin).2.1
  obtain ⟨ts, n, hwake⟩ := wakeupProc_eq hz hr hidle hrun
  exact ⟨_, _, ts, n, hwake⟩

/-- `current` in `down` was woken before `schedule` picked it. -/
theorem SemsOk.current_woken (h : SemsOk s) (hdown : s.downOf s.kernel.current = some l)
    (hat : s.kernel.atSchedule = false) : s.Woken s.kernel.current :=
  h.woken l _ hdown (h.notMem_of_runnable (h.kernel.running hat))

/-- A process that is not in `down` has no token to wait for, whatever the queues do. -/
theorem SemsOk.ofQueues (h : SemsOk s) {sem : σ → Semaphore ℕ}
    (hq : ∀ l, (sem l).waitQueue = (s.sem l).waitQueue) : SemsOk { s with sem := sem } := by
  refine ⟨h.kernel, fun l => ?_, fun l w hw => ?_, h.known, fun l w hdown hw => ?_⟩
  · show (sem l).waitQueue.Nodup
    rw [hq]
    exact h.nodup l
  · exact (h.asleep l w (hq l ▸ hw)).congr rfl rfl rfl rfl
  · exact (h.woken l w hdown (hq l ▸ hw)).congr rfl rfl

/-- The operations of the process model spare who is in `down`. -/
theorem SemsOk.spares (h : SemsOk s) {o : Proc.Op} (hen : s.Enabled (.kernel o))
    (hw : s.downOf w ≠ none) {kernel : State} {ret : Option ℤ}
    (hrun : s.kernel.step o = .ok (kernel, ret)) : Spares w s.kernel kernel := by
  obtain ⟨hen, hallows⟩ : s.kernel.Enabled o ∧ s.Allows o := hen
  refine spares_step h.kernel hen (h.known w hw) ?_ ?_ hrun
  · rintro hby rfl
    cases o with
    | schedule => exact hby
    | tick => exact hby
    | wakeup p => exact hby
    | block ws => exact hw hallows.1
    | _ => exact hw hallows
  · rintro q rfl
    exact hallows

theorem SemsOk.kernelStep (h : SemsOk s) {o : Proc.Op} (hen : s.Enabled (.kernel o))
    {kernel : State} {ret : Option ℤ} (hrun : s.kernel.step o = .ok (kernel, ret)) :
    SemsOk { s with kernel := kernel } := by
  have hstep := step_ok h.kernel hen.1 hrun
  refine ⟨hstep.ok, h.nodup, fun l w hw => ?_, fun w hw => ?_, fun l w hdown hw => ?_⟩
  · obtain ⟨hdown, hproc, hqueue, hlink, hstate, hwait⟩ := h.asleep l w hw
    have hspares := h.spares hen (w := w) (by rw [hdown]; exact nofun) hrun
    obtain ⟨hstate', hwait'⟩ := hspares.asleep hstate hwait
    exact ⟨hdown, hproc, hqueue, hlink, hstate', hwait'⟩
  · obtain ⟨l, hl⟩ := Option.ne_none_iff_exists'.mp hw
    refine mem_step h.kernel hen.1 (h.known w hw) ?_ hrun
    rcases h.awakeOrAsleep hl with hstate | ⟨hstate, -⟩
    · rw [hstate]
      decide
    · rw [hstate]
      decide
  · obtain ⟨hlink, hflags, hstate⟩ := h.woken l w hdown hw
    have hspares := h.spares hen (w := w) (by rw [hdown]; exact nofun) hrun
    exact ⟨hlink, hflags, hspares.awake hstate⟩

/-- `down` returns. -/
theorem SemsOk.returned (h : SemsOk s) (hat : s.kernel.atSchedule = false) :
    SemsOk { s with downOf := update s.downOf s.kernel.current none } := by
  refine ⟨h.kernel, h.nodup, fun k q hin => ?_, fun q hq => ?_, fun k q hq hnot => ?_⟩
  · have hne : q ≠ s.kernel.current := by
      rintro rfl
      exact h.notMem_of_runnable (h.kernel.running hat) hin
    exact (h.asleep k q hin).congr (update_of_ne hne _ _) rfl rfl rfl
  · refine h.known q fun heq => hq ?_
    by_cases hqc : q = s.kernel.current
    · rw [hqc]
      exact update_self _ _ _
    · exact (update_of_ne hqc _ _).trans heq
  · by_cases hqc : q = s.kernel.current
    · rw [hqc] at hq
      exact nomatch (update_self s.kernel.current (none : Option σ) s.downOf).symm.trans hq
    · exact (h.woken k q ((update_of_ne hqc _ _).symm.trans hq) hnot).congr rfl rfl

theorem Starts.semsOk {v₀ : σ → ℤ} (h : s.Starts v₀) : SemsOk s := by
  have hqueue : ∀ l, (s.sem l).waitQueue = [] := fun l => by
    rw [h.sem l]
    rfl
  refine ⟨h.booted.ok, fun l => ?_, fun l w hw => ?_, fun w hw => absurd (h.downOf w) hw,
    fun l w hw => ?_⟩
  · rw [hqueue]
    exact List.nodup_nil
  · rw [hqueue] at hw
    exact absurd hw List.not_mem_nil
  · exact nomatch (h.downOf w).symm.trans hw

/-! ### The functions -/

variable [DecidableEq σ]

/-- `__up` where nobody waits. -/
theorem upFor_nil {ws : WaitState} (hnil : (s.sem l).waitQueue = []) (hv : (s.sem l).value < INT_MAX) :
    s.upFor ws l = .ok ({ s with sem := update s.sem l (s.sem l).up }, none) := by
  rw [upFor, waitQueueFirst, hnil]
  dsimp only [List.head?_nil]
  rw [require_pos hv, bind_ok, Semaphore.up_nil hnil]
  rfl

/-- `__up` where `w` waits first. -/
theorem upFor_cons {rest : List ℕ} {kernel : State} (hq : (s.sem l).waitQueue = w :: rest)
    (hs : s.Sleeps l w) (hwake : s.kernel.wakeupProc w = .ok kernel) :
    s.upFor .WT_KSEM l = .ok ({ s with
      kernel := kernel
      sem := update s.sem l (s.sem l).up
      wait := update s.wait w
        { s.wait w with wakeupFlags := .waitState .WT_KSEM, waitLink := none } }, some w) := by
  rw [upFor, waitQueueFirst, hq]
  dsimp only [List.head?_cons]
  rw [hs.proc, require_pos hs.waitState, bind_ok, wakeupWait, if_pos rfl, waitQueueDel, hs.waitLink]
  dsimp only
  rw [require_pos hs.waitQueue, bind_ok, bind_ok]
  dsimp only
  rw [update_self, update_idem, update_self, hs.proc, hq, List.erase_cons_head, wakeup, hwake,
    Semaphore.up_cons hq]
  rfl

/-- `__down` where there is no token. -/
theorem downFor_queue {ws : WaitState} (hv : ¬ 0 < (s.sem l).value) :
    s.downFor ws l = .ok ({
      kernel := s.kernel.block ws
      sem := update s.sem l ((s.sem l).down s.kernel.current)
      wait := update s.wait s.kernel.current ⟨s.kernel.current, .WT_INTERRUPTED, some l, some l⟩
      downOf := update s.downOf s.kernel.current (some l) }, false) := by
  have hlink : ((s.waitInit s.kernel.current s.kernel.current).wait s.kernel.current).waitLink =
      none := by
    rw [waitInit]
    dsimp only
    rw [update_self]
  rw [downFor, if_neg hv, waitCurrentSet]
  dsimp only
  rw [waitQueueAdd, require_pos hlink, bind_ok, bind_ok, waitInit, Semaphore.down, if_neg hv]
  dsimp only
  rw [update_self, update_idem]

/-- `__down` for a process that was woken. -/
theorem goOnFor_woken (hw : s.Woken s.kernel.current) : s.goOnFor .WT_KSEM l =
    .ok ({ s with downOf := update s.downOf s.kernel.current none }, none) := by
  rw [goOnFor, waitCurrentDel, if_neg (not_not.mpr hw.waitLink), bind_ok]
  dsimp only
  rw [if_neg (not_not.mpr hw.wakeupFlags)]

/-! ### What a step does -/

/-- One case for each way through the functions. -/
inductive Steps (s : Sems σ) : Op σ → Event σ → Sems σ → Prop
  | kernel {op : Proc.Op} {kernel : State} {ret : Option ℤ}
      (hrun : s.kernel.step op = .ok (kernel, ret)) :
      Steps s (.kernel op) (.kernel op) { s with kernel := kernel }
  | put {l : σ} (hnil : (s.sem l).waitQueue = []) :
      Steps s (.up l) (.up l none) { s with sem := update s.sem l (s.sem l).up }
  | grant {l : σ} {w : ℕ} {rest : List ℕ} {kernel : State} (hq : (s.sem l).waitQueue = w :: rest)
      (hwake : s.kernel.wakeupProc w = .ok kernel) : Steps s (.up l) (.up l (some w)) { s with
        kernel := kernel
        sem := update s.sem l (s.sem l).up
        wait := update s.wait w
          { s.wait w with wakeupFlags := .waitState .WT_KSEM, waitLink := none } }
  | take {op : Op σ} {l : σ} (hop : op = .down l ∨ op = .tryDown l) (hv : 0 < (s.sem l).value) :
      Steps s op (.took l s.kernel.current)
        { s with sem := update s.sem l ((s.sem l).down s.kernel.current) }
  | failed {l : σ} : Steps s (.tryDown l) (.failed l s.kernel.current) s
  | queue {l : σ} (hv : ¬ 0 < (s.sem l).value) : Steps s (.down l) (.queued l s.kernel.current) {
      kernel := s.kernel.block .WT_KSEM
      sem := update s.sem l ((s.sem l).down s.kernel.current)
      wait := update s.wait s.kernel.current ⟨s.kernel.current, .WT_INTERRUPTED, some l, some l⟩
      downOf := update s.downOf s.kernel.current (some l) }
  | returned {l : σ} (hdown : s.downOf s.kernel.current = some l) :
      Steps s (.goOn l) (.returned l s.kernel.current)
        { s with downOf := update s.downOf s.kernel.current none }

/-- **Every step is as listed**, unless an operation of the process model fails or `value`
overflows. -/
theorem step_cases (h : SemsOk s) (hen : s.Enabled op) :
    (∃ e s', s.step op = .ok (s', e) ∧ s.Steps op e s') ∨
      (∃ o x, op = .kernel o ∧ s.step op = .error (.kernel x)) ∨
      ∃ l, op = .up l ∧ s.step op = .error .overflow ∧ (s.sem l).waitQueue = [] ∧
        INT_MAX ≤ (s.sem l).value := by
  cases op with
  | kernel o =>
    cases hrun : s.kernel.step o with
    | error x =>
      refine .inr (.inl ⟨o, x, rfl, ?_⟩)
      rw [step, hrun]
    | ok r =>
      refine .inl ⟨_, _, ?_, .kernel hrun⟩
      rw [step, hrun]
  | up l =>
    rw [step, up]
    cases hq : (s.sem l).waitQueue with
    | nil =>
      by_cases hv : (s.sem l).value < INT_MAX
      · left
        rw [upFor_nil hq hv]
        exact ⟨_, _, rfl, .put hq⟩
      · refine .inr (.inr ⟨l, rfl, ?_, hq, not_lt.mp hv⟩)
        rw [upFor, waitQueueFirst, hq]
        dsimp only [List.head?_nil]
        rw [require, if_neg hv]
        rfl
    | cons w rest =>
      left
      have hs := h.asleep l w (by rw [hq]; exact List.mem_cons_self)
      obtain ⟨run, rq, ts, n, hwake⟩ := h.wakeup hs
      rw [upFor_cons hq hs hwake]
      exact ⟨_, _, rfl, .grant hq hwake⟩
  | down l =>
    left
    rw [step, down]
    by_cases hv : 0 < (s.sem l).value
    · refine ⟨_, _, ?_, .take (Or.inl rfl) hv⟩
      rw [downFor, if_pos hv, Semaphore.down, if_pos hv]
      rfl
    · refine ⟨_, _, ?_, .queue hv⟩
      rw [downFor_queue hv]
      rfl
  | tryDown l =>
    left
    rw [step, tryDown]
    by_cases hv : 0 < (s.sem l).value
    · refine ⟨_, _, ?_, .take (Or.inr rfl) hv⟩
      rw [if_pos hv, Semaphore.down, if_pos hv]
      rfl
    · rw [if_neg hv]
      exact ⟨_, _, rfl, .failed⟩
  | goOn l =>
    left
    obtain ⟨hdown, hat⟩ : s.downOf s.kernel.current = some l ∧ s.kernel.atSchedule = false := hen
    rw [step, goOn, goOnFor_woken (h.current_woken hdown hat)]
    exact ⟨_, _, rfl, .returned hdown⟩

/-! ### The invariant is kept -/

/-- `up` wakes the first of the queue. -/
theorem SemsOk.grant (h : SemsOk s) {rest : List ℕ} {kernel : State}
    (hq : (s.sem l).waitQueue = w :: rest) (hwake : s.kernel.wakeupProc w = .ok kernel) :
    SemsOk { s with
      kernel := kernel
      sem := update s.sem l (s.sem l).up
      wait := update s.wait w
        { s.wait w with wakeupFlags := .waitState .WT_KSEM, waitLink := none } } := by
  have hmem : w ∈ (s.sem l).waitQueue := by
    rw [hq]
    exact List.mem_cons_self
  have hs := h.asleep l w hmem
  have hnodup := h.nodup l
  rw [hq, List.nodup_cons] at hnodup
  have hz : s.kernel.state w ≠ .PROC_ZOMBIE := by
    rw [hs.state]
    decide
  obtain ⟨kernel', hwake', -, hok⟩ :=
    h.kernel.wakeupProc (Or.inr (h.known w (by rw [hs.downOf]; exact nofun))) hz
  cases hwake.symm.trans hwake'
  obtain ⟨run, rq, ts, n, hwake''⟩ := h.wakeup hs
  cases hwake.symm.trans hwake''
  have hup : (s.sem l).up.waitQueue = rest := by rw [Semaphore.up_cons hq]
  -- the queues without `w`
  have hqueue : ∀ k q, q ∈ (update s.sem l (s.sem l).up k).waitQueue ↔
      q ∈ (s.sem k).waitQueue ∧ q ≠ w := by
    intro k q
    by_cases hk : k = l
    · subst hk
      rw [update_self, hup, hq, List.mem_cons]
      constructor
      · exact fun hin => ⟨Or.inr hin, ne_of_mem_of_not_mem hin hnodup.1⟩
      · exact fun hand => hand.1.resolve_left hand.2
    · rw [update_of_ne hk]
      refine (and_iff_left_of_imp ?_).symm
      rintro hin rfl
      exact hk (Option.some.inj ((h.asleep k q hin).downOf.symm.trans hs.downOf))
  refine ⟨hok, fun k => ?_, fun k q hin => ?_, h.known, fun k q hdown hnot => ?_⟩
  · by_cases hk : k = l
    · rw [hk]
      dsimp only
      rw [update_self, hup]
      exact hnodup.2
    · dsimp only
      rw [update_of_ne hk]
      exact h.nodup k
  · obtain ⟨hin, hne⟩ := (hqueue k q).mp hin
    exact (h.asleep k q hin).congr rfl (update_of_ne hne _ _) (update_of_ne hne _ _)
      (update_of_ne hne _ _)
  · by_cases hqw : q = w
    · subst hqw
      refine ⟨?_, ?_, update_self _ _ _⟩
      · dsimp only
        rw [update_self]
      · dsimp only
        rw [update_self]
    · have hwoken := h.woken k q hdown fun hin => hnot ((hqueue k q).mpr ⟨hin, hqw⟩)
      exact hwoken.congr (update_of_ne hqw _ _) (update_of_ne hqw _ _)

/-- `down` puts `current` to sleep. -/
theorem SemsOk.queue (h : SemsOk s) (hr : s.kernel.Running) (hnone : s.downOf s.kernel.current = none)
    (hv : ¬ 0 < (s.sem l).value) : SemsOk {
      kernel := s.kernel.block .WT_KSEM
      sem := update s.sem l ((s.sem l).down s.kernel.current)
      wait := update s.wait s.kernel.current ⟨s.kernel.current, .WT_INTERRUPTED, some l, some l⟩
      downOf := update s.downOf s.kernel.current (some l) } := by
  have hok : Ok (s.kernel.block .WT_KSEM) :=
    (@step_ok _ _ (.block .WT_KSEM) _ h.kernel ⟨hr, Or.inl rfl⟩ rfl).ok
  have hdown : ((s.sem l).down s.kernel.current).waitQueue =
      (s.sem l).waitQueue ++ [s.kernel.current] := by
    rw [Semaphore.down, if_neg hv]
  -- the queues with `current`
  have hqueue : ∀ k q, q ∈ (update s.sem l ((s.sem l).down s.kernel.current) k).waitQueue ↔
      q ∈ (s.sem k).waitQueue ∨ q = s.kernel.current ∧ k = l := by
    intro k q
    by_cases hk : k = l
    · subst hk
      rw [update_self, hdown, List.mem_append, List.mem_singleton]
      exact or_congr_right (and_iff_left rfl).symm
    · rw [update_of_ne hk]
      exact (or_iff_left fun hand => hk hand.2).symm
  refine ⟨hok, fun k => ?_, fun k q hin => ?_, fun q hq => ?_, fun k q hq hnot => ?_⟩
  · by_cases hk : k = l
    · rw [hk]
      dsimp only
      rw [update_self, hdown, List.nodup_append]
      refine ⟨h.nodup l, List.nodup_singleton _, ?_⟩
      rintro a ha b hb rfl
      exact h.notMem hnone (List.mem_singleton.mp hb ▸ ha)
    · dsimp only
      rw [update_of_ne hk]
      exact h.nodup k
  · rcases (hqueue k q).mp hin with hin | ⟨rfl, rfl⟩
    · have hne : q ≠ s.kernel.current := by
        rintro rfl
        exact h.notMem hnone hin
      exact (h.asleep k q hin).congr (update_of_ne hne _ _) (update_of_ne hne _ _)
        (update_of_ne hne _ _) (update_of_ne hne _ _)
    · refine ⟨update_self _ _ _, ?_, ?_, ?_, update_self _ _ _, update_self _ _ _⟩
      · dsimp only
        rw [update_self]
      · dsimp only
        rw [update_self]
      · dsimp only
        rw [update_self]
  · by_cases hqc : q = s.kernel.current
    · rw [hqc]
      exact hr.mem h.kernel
    · exact h.known q fun heq => hq ((update_of_ne hqc _ _).trans heq)
  · have hqc : q ≠ s.kernel.current := by
      rintro rfl
      have hkl : some l = some k :=
        (update_self s.kernel.current (some l) s.downOf).symm.trans hq
      exact hnot ((hqueue k _).mpr (Or.inr ⟨rfl, (Option.some.inj hkl).symm⟩))
    have hwoken := h.woken k q ((update_of_ne hqc _ _).symm.trans hq)
      fun hin => hnot ((hqueue k q).mpr (Or.inl hin))
    exact hwoken.congr (update_of_ne hqc _ _) (update_of_ne hqc _ _)

theorem SemsOk.steps (h : SemsOk s) (hen : s.Enabled op) (hs : s.Steps op e s') : SemsOk s' := by
  cases hs with
  | kernel hrun => exact h.kernelStep hen hrun
  | @put l hnil =>
    refine h.ofQueues fun k => ?_
    by_cases hk : k = l
    · rw [hk, update_self, Semaphore.up_nil hnil]
    · rw [update_of_ne hk]
  | grant hq hwake => exact h.grant hq hwake
  | @take _ l hop hv =>
    refine h.ofQueues fun k => ?_
    by_cases hk : k = l
    · rw [hk, update_self, Semaphore.down, if_pos hv]
    · rw [update_of_ne hk]
  | failed => exact h
  | queue hv => exact h.queue hen.1 hen.2 hv
  | returned => exact h.returned hen.2

/-- The step is one of those listed. -/
theorem SemsOk.next (h : SemsOk s) (hn : s.Next e s') : ∃ op, s.Enabled op ∧ s.Steps op e s' := by
  obtain ⟨op, hen, hrun⟩ := hn
  rcases step_cases h hen with ⟨e', s'', hrun', hs⟩ | ⟨o, x, -, herr⟩ | ⟨k, -, herr, -⟩
  · cases hrun.symm.trans hrun'
    exact ⟨op, hen, hs⟩
  · exact nomatch hrun.symm.trans herr
  · exact nomatch hrun.symm.trans herr

/-! ### What the observer counts -/

/-- The event, as one of the tokens of `l`. -/
def tokenEvent (l : σ) : Event σ → Option (Tokens.Event ℕ)
  | .up l' granted => if l' = l then some (.put granted) else none
  | .took l' p => if l' = l then some (.take p) else none
  | .queued l' p => if l' = l then some (.queue p) else none
  | .failed _ _ | .returned _ _ | .kernel _ => none

def tokenEvents (l : σ) (es : List (Event σ)) : List (Tokens.Event ℕ) := es.filterMap (tokenEvent l)

/-- Who went on in `down` and returned. -/
def returnEvent (l : σ) : Event σ → Option ℕ
  | .returned l' p => if l' = l then some p else none
  | _ => none

def returned (l : σ) (es : List (Event σ)) : List ℕ := es.filterMap (returnEvent l)

/-- `up` has taken `p` off the queue, and its `down` has not returned yet. -/
def Granted (s : Sems σ) (l : σ) (p : ℕ) : Prop := s.downOf p = some l ∧ p ∉ (s.sem l).waitQueue

instance (s : Sems σ) (l : σ) (p : ℕ) : Decidable (s.Granted l p) :=
  inferInstanceAs (Decidable (_ ∧ _))

/-- One semaphore changes, as the event says. -/
theorem pool_update {k l : σ} {sem : Semaphore ℕ} {d : Tokens.Event ℕ}
    (he : tokenEvent l e = if k = l then some d else none)
    (hstep : Tokens.Step (s.sem k).pool d sem.pool) :
    tokenEvent l e = none ∧ (update s.sem k sem l).pool = (s.sem l).pool ∨
      ∃ d, tokenEvent l e = some d ∧ Tokens.Step (s.sem l).pool d (update s.sem k sem l).pool := by
  rw [he]
  by_cases hk : k = l
  · subst hk
    rw [if_pos rfl, update_self]
    exact Or.inr ⟨d, rfl, hstep⟩
  · rw [if_neg hk, update_of_ne (Ne.symm hk)]
    exact Or.inl ⟨rfl, rfl⟩

/-- **Refinement**: a step does to the tokens of `l` what its event says. -/
theorem Steps.pool (hs : s.Steps op e s') (l : σ) :
    tokenEvent l e = none ∧ (s'.sem l).pool = (s.sem l).pool ∨
      ∃ d, tokenEvent l e = some d ∧ Tokens.Step (s.sem l).pool d (s'.sem l).pool := by
  cases hs with
  | kernel => exact Or.inl ⟨rfl, rfl⟩
  | @put k hnil =>
    have hstep := (s.sem k).step_up
    rw [hnil] at hstep
    exact pool_update rfl hstep
  | @grant k w rest _ hq =>
    have hstep := (s.sem k).step_up
    rw [hq] at hstep
    exact pool_update rfl hstep
  | @take _ k _ hv =>
    have hstep := (s.sem k).step_down s.kernel.current
    rw [if_pos hv] at hstep
    exact pool_update rfl hstep
  | failed => exact Or.inl ⟨rfl, rfl⟩
  | @queue k hv =>
    have hstep := (s.sem k).step_down s.kernel.current
    rw [if_neg hv] at hstep
    exact pool_update rfl hstep
  | returned => exact Or.inl ⟨rfl, rfl⟩

/-- A process is granted one token for each time it returns. -/
theorem Steps.returns (h : SemsOk s) (hen : s.Enabled op) (hs : s.Steps op e s') (l : σ) (p : ℕ) :
    (if s.Granted l p then 1 else 0) + ((tokenEvent l e).bind Tokens.Event.granted).toList.count p =
      (if s'.Granted l p then 1 else 0) + (returnEvent l e).toList.count p := by
  -- the queue of `k` is the only one that changes
  have hsame : ∀ (sem : Semaphore ℕ) (k : σ), sem.waitQueue = (s.sem k).waitQueue →
      (update s.sem k sem l).waitQueue = (s.sem l).waitQueue := by
    intro sem k hq
    by_cases hk : l = k
    · rw [hk, update_self, hq]
    · rw [update_of_ne hk]
  cases hs with
  | kernel => rfl
  | @put k hnil =>
    have hgranted : (tokenEvent l (.up k none)).bind Tokens.Event.granted = none := by
      rw [tokenEvent]
      split <;> rfl
    rw [hgranted]
    refine congrArg (· + 0) (if_congr ?_ rfl rfl)
    rw [Granted, Granted, hsame _ k (by rw [Semaphore.up_nil hnil])]
  | @grant k w rest kernel hq hwake =>
    have hmem : w ∈ (s.sem k).waitQueue := by
      rw [hq]
      exact List.mem_cons_self
    have hdown := (h.asleep k w hmem).downOf
    have hnodup := h.nodup k
    rw [hq, List.nodup_cons] at hnodup
    by_cases hk : k = l
    · subst hk
      by_cases hp : p = w
      · subst hp
        have hbefore : ¬ s.Granted k p := fun hg => hg.2 hmem
        rw [if_neg hbefore, tokenEvent, if_pos rfl, if_pos]
        · simp [Tokens.Event.granted, returnEvent]
        · refine ⟨hdown, ?_⟩
          dsimp only
          rw [update_self, Semaphore.up_cons hq]
          exact hnodup.1
      · have hcount : ((tokenEvent k (.up k (some w))).bind Tokens.Event.granted).toList.count p =
            0 := by
          rw [tokenEvent, if_pos rfl]
          exact List.count_singleton.trans (if_neg (by simpa using Ne.symm hp))
        rw [hcount]
        refine congrArg (· + 0) (if_congr ?_ rfl rfl)
        refine and_congr_right fun _ => not_congr ?_
        dsimp only
        rw [update_self, Semaphore.up_cons hq, hq, List.mem_cons, or_iff_right hp]
    · rw [tokenEvent, if_neg hk]
      refine congrArg (· + 0) (if_congr ?_ rfl rfl)
      refine and_congr_right fun _ => not_congr ?_
      dsimp only
      rw [update_of_ne (Ne.symm hk)]
  | @take _ k hop hv =>
    have hgranted : (tokenEvent l (.took k s.kernel.current)).bind Tokens.Event.granted = none := by
      rw [tokenEvent]
      split <;> rfl
    rw [hgranted]
    refine congrArg (· + 0) (if_congr ?_ rfl rfl)
    rw [Granted, Granted, hsame _ k (by rw [Semaphore.down, if_pos hv])]
  | failed => rfl
  | @queue k hv =>
    obtain ⟨-, hnone⟩ : s.kernel.Running ∧ s.downOf s.kernel.current = none := hen
    have hgranted : (tokenEvent l (.queued k s.kernel.current)).bind Tokens.Event.granted = none := by
      rw [tokenEvent]
      split <;> rfl
    rw [hgranted]
    refine congrArg (· + 0) (if_congr ?_ rfl rfl)
    rw [Granted, Granted]
    dsimp only
    by_cases hp : p = s.kernel.current
    · rw [hp, update_self, hnone]
      refine iff_of_false (fun hand => by cases hand.1) ?_
      rintro ⟨hkl, hnot⟩
      cases hkl
      rw [update_self, Semaphore.down, if_neg hv] at hnot
      exact hnot (List.mem_append_right _ (List.mem_singleton_self _))
    · rw [update_of_ne hp]
      refine and_congr_right fun _ => not_congr ?_
      by_cases hk : l = k
      · rw [hk, update_self, Semaphore.down, if_neg hv, List.mem_append, List.mem_singleton,
          or_iff_left hp]
      · rw [update_of_ne hk]
  | @returned k hdown =>
    obtain ⟨-, hat⟩ : s.downOf s.kernel.current = some k ∧ s.kernel.atSchedule = false := hen
    have hnot := h.notMem_of_runnable (l := k) (h.kernel.running hat)
    rw [tokenEvent, returnEvent]
    by_cases hp : p = s.kernel.current
    · have hafter : ¬ ({ s with downOf := update s.downOf s.kernel.current none } : Sems σ).Granted
          l p := by
        rintro ⟨hsome, -⟩
        dsimp only at hsome
        rw [hp, update_self] at hsome
        cases hsome
      rw [if_neg hafter]
      by_cases hk : k = l
      · subst hk
        rw [if_pos ⟨hp ▸ hdown, hp ▸ hnot⟩, if_pos rfl, hp]
        simp
      · rw [if_neg hk, if_neg]
        · rfl
        · rintro ⟨hsome, -⟩
          rw [hp, hdown] at hsome
          exact hk (Option.some.inj hsome)
    · have hcount : (if k = l then some s.kernel.current else none).toList.count p = 0 := by
        split
        · exact List.count_singleton.trans (if_neg (by simpa using Ne.symm hp))
        · rfl
      rw [hcount]
      refine congrArg (· + 0) (if_congr ?_ rfl rfl)
      rw [Granted, Granted]
      dsimp only
      rw [update_of_ne hp]

/-! ### Runs -/

/-- Only the `up` that grants a token to `p` wakes it. -/
theorem SemsOk.blocked_step (h : SemsOk s) (hen : s.Enabled op) (hs : s.Steps op e s')
    (hp : s.Blocked l p) : s'.Blocked l p ∨ op = .up l ∧ e = .up l (some p) ∧
      (s.sem l).waitQueue.head? = some p := by
  have hmem := h.blocked_iff.mp hp
  have hok := h.steps hen hs
  rw [hok.blocked_iff]
  cases hs with
  | kernel => exact Or.inl hmem
  | @put k hnil =>
    left
    by_cases hk : l = k
    · rw [← hk] at hnil
      rw [hnil] at hmem
      exact absurd hmem List.not_mem_nil
    · dsimp only
      rw [update_of_ne hk]
      exact hmem
  | @grant k w rest _ hq =>
    by_cases hk : l = k
    · subst hk
      rw [hq] at hmem
      rcases List.mem_cons.mp hmem with rfl | hmem
      · refine Or.inr ⟨rfl, rfl, ?_⟩
        rw [hq]
        rfl
      · left
        dsimp only
        rw [update_self, Semaphore.up_cons hq]
        exact hmem
    · left
      dsimp only
      rw [update_of_ne hk]
      exact hmem
  | @take _ k _ hv =>
    left
    by_cases hk : l = k
    · dsimp only
      rw [hk, update_self, Semaphore.down, if_pos hv]
      exact hk ▸ hmem
    · dsimp only
      rw [update_of_ne hk]
      exact hmem
  | failed => exact Or.inl hmem
  | @queue k hv =>
    left
    by_cases hk : l = k
    · dsimp only
      rw [hk, update_self, Semaphore.down, if_neg hv]
      exact List.mem_append_left _ (hk ▸ hmem)
    · dsimp only
      rw [update_of_ne hk]
      exact hmem
  | returned => exact Or.inl hmem

/-- What `up` does: its token goes into the value where nobody waits, else to the first of the queue. -/
inductive GrantsOne (l : σ) (s : Sems σ) : Event σ → Sems σ → Prop
  | put {s' : Sems σ} (hnil : (s.sem l).waitQueue = []) (hnil' : (s'.sem l).waitQueue = [])
      (hvalue : (s'.sem l).value = (s.sem l).value + 1) : GrantsOne l s (.up l none) s'
  | grant {s' : Sems σ} {p : ℕ} (hq : (s.sem l).waitQueue = p :: (s'.sem l).waitQueue)
      (hvalue : (s'.sem l).value = (s.sem l).value) (hwakes : s'.kernel.state p = .PROC_RUNNABLE) :
      GrantsOne l s (.up l (some p)) s'

theorem Steps.grantsOne (hs : s.Steps (.up l) e s') : GrantsOne l s e s' := by
  cases hs with
  | put hnil =>
    refine .put hnil ?_ ?_
    · dsimp only
      rw [update_self, Semaphore.up_nil hnil]
      exact hnil
    · dsimp only
      rw [update_self, Semaphore.up_nil hnil]
  | @grant _ w rest kernel hq hwake =>
    refine .grant ?_ ?_ ?_
    · dsimp only
      rw [update_self, Semaphore.up_cons hq]
      exact hq
    · dsimp only
      rw [update_self, Semaphore.up_cons hq]
    · dsimp only
      rw [wakeupProc_state hwake, update_self]
  | take hop => rcases hop with hop | hop <;> exact nomatch hop

/-- The books of the semaphores. -/
structure Accounted (v₀ : σ → ℤ) (es : List (Event σ)) (s : Sems σ) : Prop where
  tokens : ∀ l, Tokens.Accounted (v₀ l) (tokenEvents l es) (s.sem l).pool
  /-- Who got a token out of the queue has returned from `down`, or will. -/
  returned : ∀ l p, (Tokens.granted (tokenEvents l es)).count p =
    (returned l es).count p + if s.Granted l p then 1 else 0
  blocked : ∀ l p, s.Blocked l p ↔ p ∈ (s.sem l).waitQueue

theorem ok_of_trace {v₀ : σ → ℤ} {s₀ : Sems σ} {es : List (Event σ)} (hstart : s₀.Starts v₀)
    (hrun : Trace Next s₀ es s) : SemsOk s := by
  induction hrun with
  | nil => exact hstart.semsOk
  | snoc _ hstep ih =>
    obtain ⟨op, hen, hs⟩ := ih.next hstep
    exact ih.steps hen hs

theorem returned_count {v₀ : σ → ℤ} {s₀ : Sems σ} {es : List (Event σ)} (hstart : s₀.Starts v₀)
    (hrun : Trace Next s₀ es s) (l : σ) (p : ℕ) : (Tokens.granted (tokenEvents l es)).count p =
      (returned l es).count p + if s.Granted l p then 1 else 0 := by
  induction hrun with
  | nil =>
    have hnot : ¬ s₀.Granted l p := fun hg => nomatch (hstart.downOf p).symm.trans hg.1
    rw [if_neg hnot]
    rfl
  | @snoc a b es e hprev hstep ih =>
    have hok := ok_of_trace hstart hprev
    obtain ⟨op, hen, hs⟩ := hok.next hstep
    have hcount := hs.returns hok hen l p
    have hgranted : Tokens.granted (tokenEvents l (es ++ [e])) =
        Tokens.granted (tokenEvents l es) ++
          ((tokenEvent l e).bind Tokens.Event.granted).toList := by
      rw [tokenEvents, List.filterMap_append]
      cases htoken : tokenEvent l e with
      | none => simp [htoken, tokenEvents]
      | some d => simp [htoken, tokenEvents]
    have hreturned : returned l (es ++ [e]) = returned l es ++ (returnEvent l e).toList := by
      rw [returned, List.filterMap_append]
      cases hreturn : returnEvent l e with
      | none => simp [hreturn, returned]
      | some d => simp [hreturn, returned]
    rw [hgranted, hreturned, List.count_append, List.count_append, ih]
    omega

/-- The step fails in the process model, or because `value` overflows: no assertion of the semaphores
fails. -/
def OnlyFails (s : Sems σ) (op : Op σ) (x : SemPanic) : Prop :=
  (∃ o y, op = .kernel o ∧ x = .kernel y) ∨
    ∃ l, op = .up l ∧ x = .overflow ∧ (s.sem l).waitQueue = [] ∧ INT_MAX ≤ (s.sem l).value

/-- **Counting semaphores.** -/
theorem semaphores {v₀ : σ → ℤ} {s₀ : Sems σ} {es : List (Event σ)} (hv : ∀ l, 0 ≤ v₀ l)
    (hstart : s₀.Starts v₀) (hrun : Trace Next s₀ es s) :
    Accounted v₀ es s ∧ ∀ op, s.Enabled op →
      (∀ x, s.step op = .error x → s.OnlyFails op x) ∧
      ∀ e s', s.step op = .ok (s', e) →
        (∀ l, op = .up l → GrantsOne l s e s') ∧
        ∀ l p, s.Blocked l p → s'.Blocked l p ∨
          op = .up l ∧ e = .up l (some p) ∧ (s.sem l).waitQueue.head? = some p := by
  have hok := ok_of_trace hstart hrun
  have hproject : ∀ l, Trace Tokens.Step (s₀.sem l).pool (tokenEvents l es) (s.sem l).pool := by
    intro l
    refine (hrun.project (P := SemsOk) (v := fun s => (s.sem l).pool) ?_ hstart.semsOk).2
    intro a e b hok hn
    obtain ⟨op, hen, hs⟩ := hok.next hn
    exact ⟨hok.steps hen hs, hs.pool l⟩
  refine ⟨⟨fun l => ?_, fun l p => returned_count hstart hrun l p, fun l p => hok.blocked_iff⟩,
    fun op hen => ⟨fun x herr => ?_, fun e s' hstep => ?_⟩⟩
  · have htrace := hproject l
    rw [hstart.sem l] at htrace
    exact Tokens.accounted (hv l) htrace
  · rcases step_cases hok hen with ⟨e, s', hstep, -⟩ | ⟨o, y, hop, herr'⟩ | ⟨l, hop, herr', hnil, hmax⟩
    · exact nomatch herr.symm.trans hstep
    · cases herr.symm.trans herr'
      exact Or.inl ⟨o, y, hop, rfl⟩
    · cases herr.symm.trans herr'
      exact Or.inr ⟨l, hop, rfl, hnil, hmax⟩
  · rcases step_cases hok hen with ⟨e', s'', hstep', hs⟩ | ⟨o, y, -, herr⟩ | ⟨l, -, herr, -⟩
    · cases hstep.symm.trans hstep'
      refine ⟨?_, fun l p => hok.blocked_step hen hs⟩
      rintro l rfl
      exact hs.grantsOne
    · exact nomatch hstep.symm.trans herr
    · exact nomatch hstep.symm.trans herr

/-- `initproc` forks a process and waits, and that process lets it go on. -/
theorem semaphores_two : ∃ (es : List (Event Unit)) (s : Sems Unit), Accounted (fun _ => 0) es s ∧
    Tokens.granted (tokenEvents () es) = [1] ∧ returned () es = [1] ∧ (s.sem ()).value = 0 := by
  obtain ⟨k, hboot, hk⟩ : ∃ k : State, k.Booted ∧ ∃ es s, Trace Next (⟨k, fun _ => semInit 0,
      fun w => ⟨w, .WT_INTERRUPTED, none, none⟩, fun _ => none⟩ : Sems Unit) es s ∧
      Tokens.granted (tokenEvents () es) = [1] ∧ returned () es = [1] ∧ (s.sem ()).value = 0 := by
    refine ⟨_, ⟨10, 100, fun _ => 0, fun _ => 0, ⟨some 1, true, none, some 101⟩, _, _, ⟨?_, ?_⟩,
      rfl, 1, rfl, rfl⟩, _, _, (((((((Trace.nil.snoc ⟨.kernel .schedule, ⟨Or.inr rfl, Or.inr rfl⟩, rfl⟩).snoc
        ⟨.kernel (.fork false true ⟨some 2, true, none, none⟩), ⟨⟨⟨?_, rfl, rfl⟩, ?_, ?_⟩, rfl⟩, rfl⟩).snoc
        ⟨.down (), ⟨⟨?_, rfl, rfl⟩, rfl⟩, rfl⟩).snoc
        ⟨.kernel .schedule, ⟨Or.inl rfl, Or.inl rfl⟩, rfl⟩).snoc
        ⟨.up (), ⟨⟨?_, rfl, rfl⟩, rfl⟩, rfl⟩).snoc
        ⟨.kernel .schedule, ⟨Or.inr rfl, Or.inr rfl⟩, rfl⟩).snoc
        ⟨.goOn (), ⟨rfl, rfl⟩, rfl⟩), rfl, rfl, rfl⟩
    · intro p hp
      cases hp
      decide
    · intro p hp
      cases hp
      decide
    · exact fun heq => nomatch heq
    · intro p hp
      cases hp
      decide
    · exact fun p hp => nomatch hp
    · exact fun heq => nomatch heq
    · exact fun heq => nomatch heq
  obtain ⟨es, s, htrace, hevents⟩ := hk
  exact ⟨es, s, (semaphores (fun _ => le_rfl) ⟨hboot, fun _ => rfl, fun _ => rfl⟩ htrace).1, hevents⟩

end Ucore.Proc.Sems
