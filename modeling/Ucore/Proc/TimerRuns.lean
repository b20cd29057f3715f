import Ucore.Lib.DeltaList
import Ucore.Proc.QueueRuns

/-!
# Runs and timers

`due` has the processes with timers and the ticks that are left until each is due.

* **`timers_due`**: in every state reached the head of the list has time left, and no assertion of
  `add_timer` and `run_timer_list` fails; a process that sleeps for `e` ticks and does not go on before
  wakes in the `e`-th tick; a timer that is deleted leaves the others as they are.
-/

namespace Ucore.Proc

open Function Relation Fallible State DeltaList

variable {s s' s₀ : State} {op : Op} {ret : Option ℤ} {p q d e : ℕ} {timers : List (ℕ × ℕ)}

/-- **`add_timer`** adds its timer to the others. -/
theorem times_addTimer (b p expires : ℕ) (l : List (ℕ × ℕ)) :
    (times b (addTimer p expires l)).Perm ((p, b + expires) :: times b l) := by
  induction l generalizing b expires with
  | nil => exact List.Perm.refl _
  | cons next rest ih =>
    rw [addTimer]
    split
    case isTrue hlt =>
      have hnext : b + expires + (next.2 - expires) = b + next.2 := by omega
      rw [times, times, times, hnext]
    case isFalse hge =>
      have hexpires : b + next.2 + (expires - next.2) = b + expires := by omega
      rw [times, times, ← hexpires]
      exact ((ih _ _).cons _).trans (List.Perm.swap _ _ _)

theorem times_passExpires (b expires : ℕ) (l : List (ℕ × ℕ)) :
    times b (passExpires expires l) = times (b + expires) l := by
  cases l with
  | nil => rfl
  | cons next rest =>
    rw [passExpires, times, times, Nat.add_comm next.2, Nat.add_assoc]

/-- **`del_timer`** leaves the others. -/
theorem mem_times_delTimer {b : ℕ} {l : List (ℕ × ℕ)} (hnodup : (l.map Prod.fst).Nodup) :
    (q, d) ∈ times b (delTimer p l) ↔ q ≠ p ∧ (q, d) ∈ times b l := by
  induction l generalizing b with
  | nil => exact iff_of_false List.not_mem_nil fun hand => absurd hand.2 List.not_mem_nil
  | cons timer rest ih =>
    obtain ⟨hnot, hnodup⟩ := List.nodup_cons.mp hnodup
    rw [delTimer]
    split
    case isTrue hp =>
      rw [times_passExpires, times, List.mem_cons]
      constructor
      · intro h
        have hmem := mem_of_mem_times h
        exact ⟨fun heq => hnot (by rwa [hp, ← heq]), Or.inr h⟩
      · rintro ⟨hne, heq | h⟩
        · exact absurd ((Prod.mk.inj heq).1.trans hp) hne
        · exact h
    case isFalse hp =>
      rw [times, times, List.mem_cons, List.mem_cons, ih hnodup, and_or_left]
      refine or_congr_left (and_iff_right_of_imp ?_).symm
      intro heq
      rw [(Prod.mk.inj heq).1]
      exact hp

/-! ### A tick -/

/-- What `run_timer_list` takes from the head of the list: the timers that are due.  Their processes
become runnable. -/
structure Pops (timers : List (ℕ × ℕ)) (s s' : State) (popped : List (ℕ × ℕ)) : Prop where
  eq : timers = popped ++ s'.timerList
  zero : ∀ timer ∈ popped, timer.2 = 0
  head : ∀ timer ∈ s'.timerList.head?, 0 < timer.2
  wakes : ∀ p ∈ popped.map Prod.fst, s'.state p = .PROC_RUNNABLE
  others : ∀ p ∉ popped.map Prod.fst, s'.state p = s.state p

theorem runTimers_pops (hrun : runTimers timers s = .ok s') : ∃ popped, Pops timers s s' popped := by
  induction timers generalizing s with
  | nil =>
    cases hrun
    exact ⟨[], rfl, fun _ h => absurd h List.not_mem_nil, (fun _ h => nomatch h),
      fun _ h => absurd h List.not_mem_nil, fun _ _ => rfl⟩
  | cons timer rest ih =>
    rw [runTimers] at hrun
    split at hrun
    case isTrue hzero =>
      obtain ⟨_, -, hrun⟩ := bind_eq_ok.mp hrun
      obtain ⟨s₁, hwake, hrest⟩ := bind_eq_ok.mp hrun
      have hstate := wakeupProc_state hwake
      obtain ⟨popped, hp⟩ := ih hrest
      refine ⟨timer :: popped, ?_, ?_, hp.head, ?_, ?_⟩
      · rw [List.cons_append, ← hp.eq]
      · intro t ht
        rcases List.mem_cons.mp ht with rfl | ht
        · exact hzero
        · exact hp.zero t ht
      · intro q hq
        rcases List.mem_cons.mp hq with rfl | hq
        · by_cases hin : timer.1 ∈ popped.map Prod.fst
          · exact hp.wakes _ hin
          · rw [hp.others _ hin, hstate, update_self]
        · exact hp.wakes q hq
      · intro q hq
        obtain ⟨hne, hq⟩ := not_or.mp fun h => hq (List.mem_cons.mpr h)
        rw [hp.others q hq, hstate, update_of_ne hne]
    case isFalse hpos =>
      cases hrun
      refine ⟨[], rfl, fun _ h => absurd h List.not_mem_nil, ?_,
        fun _ h => absurd h List.not_mem_nil, fun _ _ => rfl⟩
      intro t ht
      cases ht
      exact Nat.pos_of_ne_zero hpos

/-- What a tick does with the timers. -/
structure Ticked (s s' : State) : Prop where
  times : ∀ q d, (q, d) ∈ times 0 s'.timerList ↔ (q, d + 1) ∈ times 0 s.timerList ∧ 0 < d
  wakes : ∀ q, (q, 1) ∈ DeltaList.times 0 s.timerList → s'.state q = .PROC_RUNNABLE
  others : ∀ q d, (q, d + 2) ∈ DeltaList.times 0 s.timerList → s'.state q = s.state q

/-- **A tick** -/
theorem runTimerList_ticked (h : Ok s) (hrun : s.runTimerList = .ok s') : Ticked s s' := by
  obtain ⟨s₁, htimers, heq⟩ := bind_eq_ok.mp hrun
  cases heq
  obtain ⟨-, -, hlist, hstate⟩ := procTick_same s₁
  cases htl : s.timerList with
  | nil =>
    rw [htl] at htimers
    cases htimers
    have hno : ∀ q d, (q, d) ∉ DeltaList.times 0 s.timerList := by
      intro q d hmem
      rw [htl] at hmem
      exact absurd hmem List.not_mem_nil
    refine ⟨fun q d => ?_, fun q hq => absurd hq (hno q 1), fun q d hq => absurd hq (hno q _)⟩
    rw [hlist]
    exact iff_of_false (hno q d) fun hand => hno q _ hand.1
  | cons timer rest =>
    rw [htl] at htimers
    obtain ⟨_, hreq, htimers⟩ := bind_eq_ok.mp htimers
    have hne : timer.2 ≠ 0 := require_eq_ok.mp hreq
    obtain ⟨popped, hp⟩ := runTimers_pops htimers
    have hold : times 0 s.timerList = (times 0 ((timer.1, timer.2 - 1) :: rest)).map
        fun entry => (entry.1, entry.2 + 1) := by
      rw [← times_succ, Nat.sub_add_cancel (Nat.pos_of_ne_zero hne), htl]
    have hmem : ∀ q d, (q, d + 1) ∈ times 0 s.timerList ↔
        (q, d) ∈ times 0 (popped ++ s₁.timerList) := by
      intro q d
      rw [hold, ← hp.eq]
      constructor
      · intro hin
        obtain ⟨⟨q', d'⟩, hin', heq⟩ := List.mem_map.mp hin
        obtain ⟨rfl, hd⟩ := Prod.mk.inj heq
        exact Nat.succ.inj hd ▸ hin'
      · exact fun hin => List.mem_map.mpr ⟨(q, d), hin, rfl⟩
    have hnodup : ((popped ++ s₁.timerList).map Prod.fst).Nodup := by
      have hn := h.timers.nodup
      rw [htl] at hn
      rw [← hp.eq]
      exact hn
    have hrest : ∀ q d, (q, d) ∈ times 0 s₁.timerList ↔
        (q, d) ∈ times 0 (popped ++ s₁.timerList) ∧ 0 < d := fun q d =>
      mem_times_append hp.zero hp.head
    refine ⟨fun q d => ?_, fun q hq => ?_, fun q d hq => ?_⟩
    · rw [hlist, hmem, hrest]
    · have hq' := (hmem q 0).mp hq
      rw [hstate]
      apply hp.wakes
      have howner := mem_of_mem_times hq'
      rw [List.map_append] at howner
      refine (List.mem_append.mp howner).resolve_right fun hin => ?_
      obtain ⟨d, hd⟩ := exists_time (b := 0) hin
      obtain ⟨hd', hpos⟩ := (hrest q d).mp hd
      have hzero := eq_of_mem_times hnodup hq' hd'
      omega
    · have hq' := (hmem q (d + 1)).mp hq
      rw [hstate]
      apply hp.others
      intro hin
      have hkept := mem_of_mem_times ((hrest q (d + 1)).mpr ⟨hq', Nat.succ_pos d⟩)
      rw [List.map_append] at hnodup
      exact (List.nodup_append.mp hnodup).2.2 q hin q hkept rfl

/-! ### Steps with their process -/

/-- A step, labelled with the operation and the process that runs. -/
def State.Labelled (s : State) (label : Op × ℕ) (s' : State) : Prop :=
  label.2 = s.current ∧ ∃ ret, s.Enabled label.1 ∧ s.step label.1 = .ok (s', ret)

theorem State.Labelled.next {label : Op × ℕ} (h : s.Labelled label s') : s.Next s' := by
  obtain ⟨-, ret, hen, hrun⟩ := h
  exact ⟨label.1, ret, hen, hrun⟩

/-- The process is in `do_sleep`. -/
structure Asleep (p : ℕ) (s : State) : Prop where
  mem : p ∈ s.procList
  place : s.place p = .inSleep
  ne_zombie : s.state p ≠ .PROC_ZOMBIE

/-- It stays there until it goes on. -/
theorem Asleep.step {label : Op × ℕ} (h : Asleep p s) (hok : Ok s) (hs : s.Labelled label s')
    (hresume : label ≠ (.resume, p)) : Asleep p s' := by
  obtain ⟨op, c⟩ := label
  obtain ⟨rfl, ret, hen, hrun⟩ := hs
  obtain ⟨-, hstepped, hk⟩ := step_ok hok hen hrun
  have hrunning : s.Running → p ≠ s.current := by
    rintro hr rfl
    exact nomatch hr.place.symm.trans h.place
  have hpause : op.Pauses → p ≠ s.current := by
    intro hpause
    cases op with
    | wait => exact hrunning hen
    | sleep => exact hrunning hen
    | resume =>
      rintro rfl
      exact hresume rfl
    | _ => exact hpause.elim
  refine ⟨?_, ?_, ?_⟩
  · cases hstepped.changes with
    | none hsame => exact hsame ▸ h.mem
    | forked _ _ _ _ _ c _ hlist =>
      rw [hlist]
      exact List.mem_cons_of_mem _ h.mem
    | freed _ _ _ c _ _ hz _ hlist =>
      rw [hlist]
      refine (List.mem_erase_of_ne ?_).mpr h.mem
      rintro rfl
      exact h.ne_zombie hz
  · rw [(hk.place p h.mem).resolve_right fun hand => hpause hand.2 hand.1]
    exact h.place
  · intro hz
    cases hstepped with
    | quiet hq => exact h.ne_zombie ((hq.zombie p (Or.inr h.mem)).mp hz)
    | tables => exact h.ne_zombie hz
    | forked _ c _ hc mm mmCount t tables _ hstart =>
      have hne : p ≠ c := fun heq => hc (heq ▸ Or.inr h.mem)
      rw [hstart.frame] at hz
      have hz' : update (update s.state c .PROC_UNINIT) c .PROC_RUNNABLE p = .PROC_ZOMBIE := hz
      rw [update_of_ne hne, update_of_ne hne] at hz'
      exact h.ne_zombie hz'
    | exited hexit hexits =>
      rcases (hexits.zombie p).mp hz with heq | hz
      · have hcur : p = s.current := heq
        cases hexit with
        | exit =>
          have hr : s.Running := hen
          exact hrunning hr hcur
        | killed => exact hpause trivial hcur
        | noFile =>
          obtain ⟨hr, -⟩ : s.Running ∧ _ := hen
          exact hrunning hr hcur
        | noLoad =>
          obtain ⟨hr, -⟩ : s.Running ∧ _ := hen
          exact hrunning hr hcur
      · exact h.ne_zombie hz
    | freed _ c _ _ _ _ hf =>
      rw [hf.frame] at hz
      exact h.ne_zombie hz

/-- `do_sleep` adds its timer. -/
theorem sleep_timers (h : Ok s) (hr : s.Running) (he : 0 < e)
    (hrun : s.step (.sleep e) = .ok (s', ret)) :
    (times 0 s'.timerList).Perm ((s.current, e) :: times 0 s.timerList) ∧ Asleep s.current s' := by
  have hnot : ∀ timer ∈ s.timerList, timer.1 ≠ s.current := by
    intro timer hmem heq
    have hplace := (h.timers.mem _ (List.mem_map_of_mem (f := Prod.fst) hmem)).2.1
    rw [heq, hr.place] at hplace
    exact nomatch hplace
  rw [State.step, doSleep, if_neg (Nat.ne_of_gt he), require_pos hnot, bind_ok] at hrun
  cases hrun
  refine ⟨?_, hr.mem h, update_self _ _ _, ?_⟩
  · have hperm := times_addTimer 0 s.current e s.timerList
    rw [Nat.zero_add] at hperm
    exact hperm
  · show update s.state s.current .PROC_SLEEPING s.current ≠ _
    rw [update_self]
    decide

/-- `do_sleep` deletes its timer when it goes on. -/
theorem resume_timers (hplace : s.place s.current = .inSleep)
    (hrun : s.step .resume = .ok (s', ret)) : s'.timerList = delTimer s.current s.timerList := by
  rw [State.step, resume, hplace] at hrun
  cases hrun
  rfl

def Op.isTick : Op → Bool
  | .tick => true
  | _ => false

/-- How many ticks a run has. -/
def ticks (labels : List (Op × ℕ)) : ℕ := labels.countP fun label => label.1.isTick

/-- The timer of `p`, which was due in `e` ticks, after `k` ticks. -/
structure DueIn (p e k : ℕ) (s : State) : Prop where
  asleep : Asleep p s
  left : k < e → (p, e - k) ∈ times 0 s.timerList
  gone : e ≤ k → p ∉ s.timerList.map Prod.fst

theorem DueIn.step {k : ℕ} {label : Op × ℕ} (h : DueIn p e k s) (hok : Ok s)
    (hs : s.Labelled label s') (hresume : label ≠ (.resume, p)) :
    DueIn p e (k + if label.1.isTick then 1 else 0) s' := by
  have hasleep := h.asleep.step hok hs hresume
  obtain ⟨op, c⟩ := label
  obtain ⟨rfl, ret, hen, hrun⟩ := hs
  have hk := (step_ok hok hen hrun).keeps
  -- the list of timers stays
  have hsame : op.isTick = false → s'.timerList = s.timerList →
      DueIn p e (k + if op.isTick then 1 else 0) s' := by
    intro htick heq
    rw [htick]
    refine ⟨hasleep, fun hlt => ?_, fun hle => ?_⟩
    · rw [heq]
      exact h.left hlt
    · rw [heq]
      exact h.gone hle
  have huses : ¬ s.UsesTimers op → s'.timerList = s.timerList := fun hno =>
    hk.timerList.resolve_right hno
  cases op with
  | tick =>
    obtain ⟨s₁, htick, heq⟩ := map_eq_ok.mp hrun
    cases heq
    have ht := runTimerList_ticked hok htick
    refine ⟨hasleep, fun hlt => ?_, fun hle hmem => ?_⟩
    · have hlt' : k + 1 < e := hlt
      have heq : e - (k + 1) + 1 = e - k := by omega
      refine (ht.times p _).mpr ⟨?_, by omega⟩
      show (p, e - (k + 1) + 1) ∈ _
      rw [heq]
      exact h.left (by omega)
    · have hle' : e ≤ k + 1 := hle
      obtain ⟨d, hd⟩ := exists_time (b := 0) hmem
      obtain ⟨hd', hpos⟩ := (ht.times p d).mp hd
      by_cases hke : e ≤ k
      · exact h.gone hke (mem_of_mem_times hd')
      · have hone := eq_of_mem_times hok.timers.nodup hd' (h.left (by omega))
        omega
  | sleep time =>
    have hr : s.Running := hen
    by_cases htime : time = 0
    · rw [State.step, doSleep, if_pos htime] at hrun
      cases hrun
      exact hsame rfl rfl
    · obtain ⟨hperm, -⟩ := sleep_timers hok hr (Nat.pos_of_ne_zero htime) hrun
      have hne : p ≠ s.current := by
        rintro rfl
        cases hr.place.symm.trans h.asleep.place
      refine ⟨hasleep, fun hlt => hperm.mem_iff.mpr (List.mem_cons_of_mem _ (h.left hlt)), ?_⟩
      intro hle hmem
      have hmem' := hmem
      rw [← map_fst_times 0, (hperm.map Prod.fst).mem_iff, List.map_cons, map_fst_times] at hmem'
      exact h.gone hle ((List.mem_cons.mp hmem').resolve_left hne)
  | resume =>
    by_cases hplace : s.place s.current = .inSleep
    · have heq := resume_timers hplace hrun
      have hne : p ≠ s.current := by
        rintro rfl
        exact hresume rfl
      refine ⟨hasleep, fun hlt => ?_, fun hle => ?_⟩
      · rw [heq]
        exact (mem_times_delTimer hok.timers.nodup).mpr ⟨hne, h.left hlt⟩
      · rw [heq, map_delTimer]
        exact fun hmem => h.gone hle (List.mem_of_mem_erase hmem)
    · exact hsame rfl (huses hplace)
  | _ => exact hsame rfl (huses id)

/-- Along a run in which `p` does not go on. -/
theorem DueIn.trace {labels : List (Op × ℕ)} (h : DueIn p e 0 s) (hok : Ok s)
    (htrace : Transition.Trace State.Labelled s labels s') (hresume : (.resume, p) ∉ labels) :
    Ok s' ∧ DueIn p e (ticks labels) s' := by
  induction htrace with
  | nil => exact ⟨hok, h⟩
  | @snoc s₁ s₂ labels label htrace hstep ih =>
    obtain ⟨hlabels, hlabel⟩ := not_or.mp fun hmem => hresume (List.mem_append.mpr hmem)
    obtain ⟨hok₁, h₁⟩ := ih hlabels
    refine ⟨Next.ok hok₁ hstep.next, ?_⟩
    have h₂ := h₁.step hok₁ hstep fun heq => hlabel (heq ▸ List.mem_singleton_self _)
    have hticks : ticks (labels ++ [label]) = ticks labels + if label.1.isTick then 1 else 0 := by
      rw [ticks, List.countP_append, List.countP_singleton]
      rfl
    rw [hticks]
    exact h₂

/-- What holds of the timers in a state. -/
structure TimersDue (s : State) : Prop where
  head : ∀ timer ∈ s.timerList.head?, 0 < timer.2
  asserts : ∀ op, s.Enabled op → ∀ e, s.step op = .error e → e ≠ .addTimer ∧ e ≠ .runTimerList
  /-- `add_timer` -/
  added : ∀ e s' ret, s.Running → 0 < e → s.step (.sleep e) = .ok (s', ret) →
    (times 0 s'.timerList).Perm ((s.current, e) :: times 0 s.timerList)
  /-- `del_timer` after `schedule` -/
  deleted : ∀ s' ret, s.place s.current = .inSleep → s.step .resume = .ok (s', ret) →
    ∀ q d, (q, d) ∈ times 0 s'.timerList ↔ q ≠ s.current ∧ (q, d) ∈ times 0 s.timerList
  /-- A timer that is not deleted before is off the list after as many ticks as the sum says, and the
  last of them, and no other, wakes its process. -/
  due : ∀ p e, (p, e) ∈ times 0 s.timerList → ∀ labels s',
    Transition.Trace State.Labelled s labels s' → (.resume, p) ∉ labels →
      (ticks labels < e → (p, e - ticks labels) ∈ times 0 s'.timerList) ∧
      (e ≤ ticks labels → p ∉ s'.timerList.map Prod.fst) ∧
      ∀ s'' ret, s'.step .tick = .ok (s'', ret) →
        (ticks labels + 1 = e → s''.state p = .PROC_RUNNABLE) ∧
        (ticks labels + 1 < e → s''.state p = s'.state p)

/-- **Timers** -/
theorem timers_due (hboot : s₀.Booted) (hrun : ReflTransGen State.Next s₀ s) : TimersDue s := by
  have h := ok_of_run hboot hrun
  refine ⟨h.timers.head, ?_, ?_, ?_, ?_⟩
  · intro op hen e hstep
    rcases step_error h hen hstep with hfiles | ⟨rfl, -⟩
    · constructor
      · rintro rfl
        exact hfiles
      · rintro rfl
        exact hfiles
    · exact ⟨by decide, by decide⟩
  · exact fun e s' ret hr he hstep => (sleep_timers h hr he hstep).1
  · intro s' ret hplace hstep q d
    rw [resume_timers hplace hstep]
    exact mem_times_delTimer h.timers.nodup
  · intro p e hmem labels s' htrace hresume
    obtain ⟨hp, hplace, hz⟩ := h.timers.mem p (mem_of_mem_times hmem)
    have hpos : 0 < e := by
      cases hlist : s.timerList with
      | nil =>
        rw [hlist] at hmem
        exact absurd hmem List.not_mem_nil
      | cons timer rest =>
        have hhead := h.timers.head timer (by rw [hlist]; rfl)
        rw [hlist, times] at hmem
        rcases List.mem_cons.mp hmem with heq | hmem
        · have he := (Prod.mk.inj heq).2
          omega
        · have hle := le_of_mem_times hmem
          omega
    have hdue : DueIn p e 0 s := ⟨⟨hp, hplace, hz⟩, fun _ => hmem, fun hle => by omega⟩
    obtain ⟨hok', hdue'⟩ := hdue.trace h htrace hresume
    refine ⟨hdue'.left, hdue'.gone, ?_⟩
    intro s'' ret hstep
    obtain ⟨s₁, htick, heq⟩ := map_eq_ok.mp hstep
    cases heq
    have ht := runTimerList_ticked hok' htick
    constructor
    · intro hlast
      apply ht.wakes
      have hleft := hdue'.left (by omega)
      rwa [show e - ticks labels = 1 by omega] at hleft
    · intro hlt
      have hleft := hdue'.left (by omega)
      apply ht.others p (e - ticks labels - 2)
      rwa [show e - ticks labels - 2 + 2 = e - ticks labels by omega]

/-- `initproc` forks 2 and sleeps for three ticks, 2 forks 3 and sleeps for five.  After a tick 3 kills 2,
whose timer is deleted when it goes on. -/
theorem timers_due_two : ∃ s s' : State, TimersDue s ∧ s.timerList = [(1, 2), (2, 2)] ∧
    ReflTransGen State.Next s s' ∧ TimersDue s' ∧ s'.timerList = [(1, 2)] := by
  obtain ⟨s₀, s₁, s₂, hboot, hrun, hlist, hdeletes, hlist'⟩ : ∃ s₀ s₁ s₂ : State, s₀.Booted ∧
      ReflTransGen State.Next s₀ s₁ ∧ s₁.timerList = [(1, 2), (2, 2)] ∧
      ReflTransGen State.Next s₁ s₂ ∧ s₂.timerList = [(1, 2)] := by
    refine ⟨_, _, _, ⟨10, 100, fun _ => 0, fun _ => 0, ⟨some 1, true, none, some 101⟩, _, _, ⟨?_, ?_⟩,
      rfl, 1, rfl, rfl⟩, .tail (.tail (.tail (.tail (.tail (.tail (.tail (.single
        ⟨.schedule, none, .inr rfl, rfl⟩)
        ⟨.fork false true ⟨some 2, true, none, none⟩, some 2, ⟨⟨?_, rfl, rfl⟩, ?_, ?_⟩, rfl⟩)
        ⟨.sleep 3, none, ⟨?_, rfl, rfl⟩, rfl⟩)
        ⟨.schedule, none, .inl rfl, rfl⟩)
        ⟨.fork false true ⟨some 3, true, none, none⟩, some 3, ⟨⟨?_, rfl, rfl⟩, ?_, ?_⟩, rfl⟩)
        ⟨.sleep 5, none, ⟨?_, rfl, rfl⟩, rfl⟩)
        ⟨.schedule, none, .inl rfl, rfl⟩)
        ⟨.tick, none, trivial, rfl⟩, rfl, .tail (.tail (.single
        ⟨.kill 2, some 0, ⟨?_, rfl, rfl⟩, rfl⟩)
        ⟨.schedule, none, .inr rfl, rfl⟩)
        ⟨.resume, some 0, ⟨nofun, rfl⟩, rfl⟩, rfl⟩
    · intro p hp
      cases hp
      decide
    · intro p hp
      cases hp
      decide
    · exact fun heq => nomatch heq
    · intro p hp
      cases hp
      decide
    · exact fun p hp => nomatch hp
    · exact fun heq => nomatch heq
    · exact fun heq => nomatch heq
    · intro p hp
      cases hp
      decide
    · exact fun p hp => nomatch hp
    · exact fun heq => nomatch heq
    · exact fun heq => nomatch heq
  exact ⟨s₁, s₂, timers_due hboot hrun, hlist, hdeletes, timers_due hboot (hrun.trans hdeletes), hlist'⟩

end Ucore.Proc
