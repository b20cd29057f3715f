import Ucore.Proc.Scheduling

/-!
# Calls that keep the tree: `do_kill`, `do_sleep`, timers

-/

namespace Ucore.Proc

open Function Fallible Forest State

variable {s s' : State} {p c : ℕ} {pid : ℤ}

/-! ### `find_proc` and `do_kill` -/

/-- **`find_proc`** finds the process with the pid. -/
theorem findProc_eq_some (h : PidsOk s.pid s.procList s.hashList s.lastPid s.nextSafe) :
    s.findProc pid = some c ↔ c ∈ s.procList ∧ s.pid c = pid := by
  rw [findProc]
  constructor
  · intro hfind
    split at hfind
    case isTrue hrange =>
      have hmem := List.mem_of_find?_eq_some hfind
      have hpid := List.find?_some hfind
      exact ⟨((h.hash _ c).mp hmem).1, of_decide_eq_true hpid⟩
    case isFalse => exact nomatch hfind
  · rintro ⟨hc, rfl⟩
    rw [if_pos (h.range c hc)]
    have hmem : c ∈ s.hashList (pidHashfn (s.pid c)) := (h.hash _ c).mpr ⟨hc, rfl⟩
    cases hfind : (s.hashList (pidHashfn (s.pid c))).find? fun p => s.pid p = s.pid c with
    | none =>
      have hnone := List.find?_eq_none.mp hfind c hmem
      exact absurd (decide_eq_true rfl) hnone
    | some q =>
      have hq := ((h.hash _ q).mp (List.mem_of_find?_eq_some hfind)).1
      rw [h.inj q hq c hc (of_decide_eq_true (List.find?_some (p := fun p => s.pid p = s.pid c) hfind))]

/-- What `do_kill` changes. -/
structure Kills (pid : ℤ) (s s' : State) : Prop where
  exiting : ∀ p, s'.exiting p ≠ s.exiting p → p ∈ s.procList ∧ s.pid p = pid
  wakes : Wakes { s with exiting := s'.exiting } s'

/-- **`do_kill`** -/
theorem doKill_ok (h : Ok s) (pid : ℤ) : ∃ s' ret, s.doKill pid = .ok (s', ret) ∧ Ok s' ∧
    Kills pid s s' := by
  rw [doKill]
  cases hfind : s.findProc pid with
  | none => exact ⟨s, _, rfl, h, fun p hne => absurd rfl hne, Wakes.refl s⟩
  | some p =>
    obtain ⟨hp, hpid⟩ := (findProc_eq_some h.pids).mp hfind
    dsimp only
    cases hex : s.exiting p with
    | true => exact ⟨s, _, rfl, h, fun q hne => absurd rfl hne, Wakes.refl s⟩
    | false =>
      let s₁ : State := { s with exiting := update s.exiting p true }
      have h₁ : Ok s₁ := h.ofSame _ _ _ _ _ _ _ _ _
      have hexit : ∀ q, update s.exiting p true q ≠ s.exiting q → q ∈ s.procList ∧ s.pid q = pid := by
        intro q hne
        by_cases hqp : q = p
        · exact hqp ▸ ⟨hp, hpid⟩
        · exact absurd (update_of_ne hqp _ _) hne
      obtain ⟨s', hrun, hw, h'⟩ : ∃ s', (if (s₁.waitState p).interrupted then s₁.wakeupProc p
          else .ok s₁) = .ok s' ∧ Wakes s₁ s' ∧ Ok s' := by
        cases hint : (s₁.waitState p).interrupted with
        | false => exact ⟨s₁, rfl, Wakes.refl s₁, h₁⟩
        | true =>
          have hne : s.waitState p ≠ .none := by
            intro hnone
            have hfalse : (s.waitState p).interrupted = true := hint
            rw [hnone] at hfalse
            exact nomatch hfalse
          have hsleep := h.waits.sleeping p (Or.inr hp) hne
          exact h₁.wakeupProc (Or.inr hp) (by rw [show s₁.state p = s.state p from rfl, hsleep]; decide)
      have hexiting : s'.exiting = update s.exiting p true := by rw [hw.frame]
      refine ⟨s', 0, ?_, h', ?_, ?_⟩
      · show (do
          let s ← (if (s₁.waitState p).interrupted then s₁.wakeupProc p else .ok s₁)
          Except.ok (s, (0 : ℤ))) = _
        rw [hrun, bind_ok]
      · rw [hexiting]
        exact hexit
      · rw [hexiting]
        exact hw

/-! ### Sleeping -/

/-- `current`, which is not in the run queue, gets another state. -/
theorem SchedOk.leave {run procs : List ℕ} {rq : ℕ → Bool} {state : ℕ → ProcState} {current idle : ℕ}
    (h : SchedOk run rq procs state current idle) (hne : current ≠ idle) (v : ProcState) :
    SchedOk run rq procs (update state current v) current idle := by
  refine ⟨h.nodup, h.linked, ?_, h.known, ?_, h.idle_notMem⟩
  · intro p
    rw [h.mem]
    by_cases hp : p = current
    · exact iff_of_false (fun hand => hand.2.2 hp) fun hand => hand.2.2 hp
    · rw [update_of_ne hp]
  · rw [update_of_ne hne.symm]
    exact h.idleRunnable

/-- **`current` waits.**  If it waits for a child, it is in `do_wait` and there is no zombie to free. -/
theorem Ok.block (h : Ok s) (hne : s.current ≠ s.idleproc) {place : ℕ → Place}
    {timers : List (ℕ × ℕ)} {ws : WaitState}
    (hplace : ∀ p, p ≠ s.current → place p = s.place p)
    (hnodup : (timers.map Prod.fst).Nodup) (htimers : ∀ p ∈ timers.map Prod.fst, p ∈ s.procList ∧
      place p = .inSleep ∧ s.state p ≠ .PROC_ZOMBIE)
    (hhead : ∀ e ∈ timers.head?, 0 < e.2)
    (hsleep : place s.current = .inSleep → ws = .WT_TIMER)
    (hchild : ws = .WT_CHILD → ∃ n, place s.current = .inWait n ∧ ∀ c ∈ s.procList,
      s.family.parent c = some s.current → s.state c = .PROC_ZOMBIE → ¬ Accepts n (s.pid c)) :
    Ok ({ s with place := place, timerList := timers }.block ws) := by
  have hz : ∀ q, update s.state s.current .PROC_SLEEPING q = .PROC_ZOMBIE →
      s.state q = .PROC_ZOMBIE := by
    intro q hq
    by_cases hqc : q = s.current
    · rw [hqc, update_self] at hq
      exact nomatch hq
    · rwa [update_of_ne hqc] at hq
  refine ⟨h.family.congr (fun _ _ => rfl) (fun _ _ => ⟨rfl, rfl, rfl⟩) fun q _ => hz q, h.pids,
    h.sched.leave hne _, ?_, ?_, (fun hat => nomatch hat), fun hq => h.init (hz _ hq), h.count,
    h.allocNodup, h.alloc⟩
  · refine ⟨?_, ?_, ?_, ?_⟩
    · intro q hq hnone
      show update s.state s.current .PROC_SLEEPING q = _
      by_cases hqc : q = s.current
      · rw [hqc, update_self]
      · rw [update_of_ne hqc]
        have hsame : update s.waitState s.current ws q = s.waitState q := update_of_ne hqc _ _
        exact h.waits.sleeping q hq fun hwait => hnone (hsame.trans hwait)
    · intro q hq hwait
      by_cases hqc : q = s.current
      · subst hqc
        have hws : ws = .WT_CHILD := (update_self _ _ _).symm.trans hwait
        obtain ⟨n, hn, hnone⟩ := hchild hws
        exact ⟨n, hn, fun c hc hpar hzombie => hnone c hc hpar (hz c hzombie)⟩
      · obtain ⟨n, hn, hnone⟩ := h.waits.child q hq ((update_of_ne hqc _ _).symm.trans hwait)
        exact ⟨n, (hplace q hqc).trans hn, fun c hc hpar hzombie => hnone c hc hpar (hz c hzombie)⟩
    · exact (hplace _ hne.symm).trans h.waits.idlePlace
    · intro q hq
      show update s.state s.current .PROC_SLEEPING q ≠ _
      by_cases hqc : q = s.current
      · rw [hqc, update_self]
        decide
      · rw [update_of_ne hqc]
        exact h.waits.born q hq
  · refine ⟨hnodup, ?_, hhead, ?_⟩
    · intro q hq
      obtain ⟨hmem, hin, hstate⟩ := htimers q hq
      exact ⟨hmem, hin, fun hq => hstate (hz _ hq)⟩
    · intro q hq hin
      show update s.waitState s.current ws q = _ ∨ update s.waitState s.current ws q = _
      by_cases hqc : q = s.current
      · rw [hqc, update_self]
        exact Or.inr (hsleep (hqc ▸ hin))
      · rw [update_of_ne hqc]
        exact h.timers.wait q hq ((hplace q hqc).symm.trans hin)

/-! ### Timers -/

theorem map_addTimer (p expires : ℕ) (l : List (ℕ × ℕ)) :
    ((addTimer p expires l).map Prod.fst).Perm (p :: l.map Prod.fst) := by
  induction l generalizing expires with
  | nil => exact List.Perm.refl _
  | cons next rest ih =>
    rw [addTimer]
    split
    · exact List.Perm.refl _
    · exact ((ih _).cons next.1).trans (List.Perm.swap _ _ _)

theorem addTimer_head {expires : ℕ} {l : List (ℕ × ℕ)} (hpos : 0 < expires)
    (hl : ∀ e ∈ l.head?, 0 < e.2) : ∀ e ∈ (addTimer p expires l).head?, 0 < e.2 := by
  cases l with
  | nil =>
    intro e he
    cases he
    exact hpos
  | cons next rest =>
    rw [addTimer]
    split
    · intro e he
      cases he
      exact hpos
    · exact hl

theorem map_delTimer (p : ℕ) (l : List (ℕ × ℕ)) :
    (delTimer p l).map Prod.fst = (l.map Prod.fst).erase p := by
  induction l with
  | nil => rfl
  | cons timer rest ih =>
    rw [delTimer, List.map_cons]
    by_cases hp : timer.1 = p
    · rw [if_pos hp, hp, List.erase_cons_head]
      cases rest with
      | nil => rfl
      | cons next rest => rfl
    · rw [if_neg hp, List.erase_cons_tail (by simpa using hp), List.map_cons, ih]

theorem delTimer_head {l : List (ℕ × ℕ)} (hl : ∀ e ∈ l.head?, 0 < e.2) :
    ∀ e ∈ (delTimer p l).head?, 0 < e.2 := by
  cases l with
  | nil => exact hl
  | cons timer rest =>
    have htimer := hl timer rfl
    rw [delTimer]
    split
    · cases rest with
      | nil => exact fun e he => nomatch he
      | cons next rest =>
        intro e he
        cases he
        exact Nat.lt_of_lt_of_le htimer (Nat.le_add_left _ _)
    · exact hl

/-- Other timers. -/
theorem Ok.setTimers (h : Ok s) {timers : List (ℕ × ℕ)} (hnodup : (timers.map Prod.fst).Nodup)
    (hsub : timers.map Prod.fst ⊆ s.timerList.map Prod.fst) (hhead : ∀ e ∈ timers.head?, 0 < e.2) :
    Ok { s with timerList := timers } :=
  ⟨h.family, h.pids, h.sched, h.waits,
    ⟨hnodup, fun p hp => h.timers.mem p (hsub hp), hhead, h.timers.wait⟩, h.running, h.init, h.count,
    h.allocNodup, h.alloc⟩

/-- The loop of `run_timer_list` over timers of processes that sleep. -/
theorem runTimers_ok (h : Ok s) {timers : List (ℕ × ℕ)}
    (hmem : timers.map Prod.fst ⊆ s.timerList.map Prod.fst) : ∃ s₁ rest,
      runTimers timers s = .ok { s₁ with timerList := rest } ∧ Wakes s s₁ ∧ Ok s₁ ∧
        rest <:+ timers ∧ ∀ e ∈ rest.head?, 0 < e.2 := by
  induction timers generalizing s with
  | nil => exact ⟨s, [], rfl, Wakes.refl s, h, List.suffix_rfl, fun e he => nomatch he⟩
  | cons timer rest ih =>
    rw [runTimers]
    by_cases hzero : timer.2 = 0
    · rw [if_pos hzero]
      obtain ⟨hp, hplace, hstate⟩ := h.timers.mem timer.1 (hmem List.mem_cons_self)
      have hwait := h.timers.wait timer.1 hp hplace
      have hint : s.waitState timer.1 ≠ .none → (s.waitState timer.1).interrupted = true := by
        intro hne
        rw [hwait.resolve_left hne]
        rfl
      obtain ⟨s₁, hrun, hw, h₁⟩ := h.wakeupProc (Or.inr hp) hstate
      have htimers : s₁.timerList = s.timerList := by rw [hw.frame]
      obtain ⟨s₂, rest', hrun', hw', h₂, hsuffix, hhead⟩ := ih h₁ (by
        rw [htimers]
        exact fun p hp => hmem (List.mem_cons_of_mem _ hp))
      rw [require_pos hint, bind_ok, hrun, bind_ok, hrun']
      exact ⟨s₂, rest', rfl, hw.trans hw', h₂, hsuffix.trans (List.suffix_cons _ _), hhead⟩
    · rw [if_neg hzero]
      refine ⟨s, timer :: rest, rfl, Wakes.refl s, h, List.suffix_rfl, ?_⟩
      intro e he
      cases he
      exact Nat.pos_of_ne_zero hzero

/-- What a timer interrupt changes. -/
structure Ticks (s s' : State) : Prop where
  wakes : ∃ s₁, Wakes s s₁ ∧ s' = { s₁ with
    timerList := s'.timerList
    timeSlice := s'.timeSlice
    needResched := s'.needResched }

theorem procTick_ok {timers : List (ℕ × ℕ)} {s₁ : State} (hw : Wakes s s₁)
    (h₁ : Ok { s₁ with timerList := timers }) :
    Ok ({ s₁ with timerList := timers } : State).procTick ∧
      Ticks s ({ s₁ with timerList := timers } : State).procTick := by
  rw [procTick]
  dsimp only
  split
  · exact ⟨h₁.ofSame _ _ _ _ _ _ _ _ _, s₁, hw, rfl⟩
  · exact ⟨h₁.ofSame _ _ _ _ _ _ _ _ _, s₁, hw, rfl⟩

/-- **The timer interrupt** -/
theorem runTimerList_ok (h : Ok s) : ∃ s', s.runTimerList = .ok s' ∧ Ok s' ∧ Ticks s s' := by
  rw [runTimerList]
  cases htimers : s.timerList with
  | nil =>
    obtain ⟨h', ht⟩ := procTick_ok (Wakes.refl s) h
    exact ⟨_, rfl, h', ht⟩
  | cons timer rest =>
    have hpos := h.timers.head timer (by rw [htimers]; rfl)
    have hmap : (((timer.1, timer.2 - 1) :: rest).map Prod.fst) = s.timerList.map Prod.fst := by
      rw [htimers]
      rfl
    obtain ⟨s₁, rest', hrun, hw, h₁, hsuffix, hhead⟩ := runTimers_ok h
      (show ((timer.1, timer.2 - 1) :: rest).map Prod.fst ⊆ _ by rw [hmap]; exact fun _ hp => hp)
    have hsub := (hsuffix.map Prod.fst).sublist
    rw [hmap] at hsub
    have hlist : s₁.timerList = s.timerList := by rw [hw.frame]
    obtain ⟨h', ht⟩ := procTick_ok hw (h₁.setTimers (hsub.nodup h.timers.nodup)
      (hlist.symm ▸ hsub.subset) hhead)
    refine ⟨_, ?_, h', ht⟩
    dsimp only
    rw [require_pos (Nat.ne_of_gt hpos), bind_ok, hrun, bind_ok]

/-- **`do_sleep`** -/
theorem doSleep_ok (h : Ok s) (hr : s.Running) (time : ℕ) :
    (time = 0 ∧ s.doSleep time = .ok (s, some 0)) ∨ ∃ place timers,
      (∀ p, p ≠ s.current → place p = s.place p) ∧
      s.doSleep time = .ok ({ s with place := place, timerList := timers }.block .WT_TIMER, none) ∧
      Ok ({ s with place := place, timerList := timers }.block .WT_TIMER) := by
  rw [doSleep]
  by_cases htime : time = 0
  · exact Or.inl ⟨htime, if_pos htime⟩
  · right
    have hnot : s.current ∉ s.timerList.map Prod.fst := by
      intro hmem
      have hplace := (h.timers.mem _ hmem).2.1
      rw [hr.place] at hplace
      exact nomatch hplace
    have hassert : ∀ timer ∈ s.timerList, timer.1 ≠ s.current := by
      intro timer hmem heq
      exact hnot (heq ▸ List.mem_map_of_mem hmem)
    have hplace : ∀ p, p ≠ s.current → update s.place s.current .inSleep p = s.place p :=
      fun p hp => update_of_ne hp _ _
    have hperm := map_addTimer s.current time s.timerList
    refine ⟨update s.place s.current .inSleep, addTimer s.current time s.timerList, hplace, ?_, ?_⟩
    · rw [if_neg htime, require_pos hassert, bind_ok]
    · refine h.block hr.ne_idle hplace (hperm.nodup_iff.mpr (List.nodup_cons.mpr
        ⟨hnot, h.timers.nodup⟩)) ?_ (addTimer_head (Nat.pos_of_ne_zero htime) h.timers.head)
        (fun _ => rfl) fun hws => nomatch hws
      intro p hp
      rcases List.mem_cons.mp (hperm.mem_iff.mp hp) with rfl | hp
      · refine ⟨hr.mem h, update_self _ _ _, ?_⟩
        rw [h.running hr.atSchedule]
        decide
      · obtain ⟨hmem, hin, hstate⟩ := h.timers.mem p hp
        refine ⟨hmem, ?_, hstate⟩
        rw [hplace p (ne_of_mem_of_not_mem hp hnot)]
        exact hin

/-- A process goes on in a function: it is neither asleep nor waiting. -/
theorem Ok.goOn (h : Ok s) (hr : s.state s.current = .PROC_RUNNABLE) {timers : List (ℕ × ℕ)}
    (hnodup : (timers.map Prod.fst).Nodup) (hsub : timers.map Prod.fst ⊆ s.timerList.map Prod.fst)
    (hhead : ∀ e ∈ timers.head?, 0 < e.2) (hnot : s.current ∉ timers.map Prod.fst) :
    Ok { s with place := update s.place s.current .run, timerList := timers } := by
  refine ⟨h.family, h.pids, h.sched, ⟨h.waits.sleeping, ?_, ?_, h.waits.born⟩, ⟨hnodup, ?_, hhead, ?_⟩,
    h.running, h.init, h.count, h.allocNodup, h.alloc⟩
  · intro p hp hwait
    have hne : p ≠ s.current := by
      intro heq
      have hne : s.waitState p ≠ .none := fun hnone => nomatch hnone.symm.trans hwait
      have hsleep := h.waits.sleeping p (Or.inr hp) hne
      rw [heq, hr] at hsleep
      exact nomatch hsleep
    obtain ⟨n, hn, hnone⟩ := h.waits.child p hp hwait
    exact ⟨n, (update_of_ne hne _ _).trans hn, hnone⟩
  · by_cases hidle : s.idleproc = s.current
    · rw [hidle]
      exact update_self _ _ _
    · exact (update_of_ne hidle _ _).trans h.waits.idlePlace
  · intro p hp
    obtain ⟨hmem, hin, hstate⟩ := h.timers.mem p (hsub hp)
    exact ⟨hmem, (update_of_ne (ne_of_mem_of_not_mem hp hnot) _ _).trans hin, hstate⟩
  · intro p hp hin
    by_cases hpc : p = s.current
    · subst hpc
      exact nomatch (update_self s.current Place.run s.place).symm.trans hin
    · exact h.timers.wait p hp ((update_of_ne hpc _ _).symm.trans hin)

end Ucore.Proc
