import Ucore.Proc.Invariant

/-!
# Waking, sleeping and switching

The functions of the scheduler keep the invariant, and none of their assertions fails.
-/

namespace Ucore.Proc

open Function Fallible Forest

variable {s s' : State} {p : ℕ}

/-! ### `wakeup_proc` -/

/-- A process that does not run becomes runnable. -/
theorem wakeupProc_eq (hz : s.state p ≠ .PROC_ZOMBIE) (hr : s.state p ≠ .PROC_RUNNABLE)
    (hidle : p ≠ s.idleproc) (hrun : p ∉ s.runList) : ∃ ts n, s.wakeupProc p = .ok { s with
      state := update s.state p .PROC_RUNNABLE
      waitState := update s.waitState p .none
      runList := if p = s.current then s.runList else s.runList ++ [p]
      rq := if p = s.current then s.rq else update s.rq p true
      timeSlice := ts
      procNum := n } := by
  rw [State.wakeupProc, if_neg hz, if_pos hr]
  dsimp only
  by_cases hcur : p = s.current
  · rw [if_neg (not_not.mpr hcur), if_pos hcur, if_pos hcur]
    exact ⟨_, _, rfl⟩
  · rw [if_pos hcur, if_neg hcur, if_neg hcur, State.enqueue, if_neg hidle, if_neg hrun]
    exact ⟨_, _, rfl⟩

theorem wakeupProc_state (hrun : s.wakeupProc p = .ok s') :
    s'.state = update s.state p .PROC_RUNNABLE := by
  rw [State.wakeupProc] at hrun
  split at hrun
  case isTrue => exact nomatch hrun
  split at hrun
  case isFalse hr =>
    cases hrun
    rw [← not_not.mp hr, update_eq_self]
  case isTrue =>
    dsimp only at hrun
    split at hrun
    · rw [State.enqueue] at hrun
      split at hrun
      · cases hrun
        rfl
      · split at hrun
        · exact nomatch hrun
        · cases hrun
          rfl
    · cases hrun
      rfl

/-- The run queue with a process that became runnable. -/
theorem SchedOk.wake {run procs : List ℕ} {rq : ℕ → Bool} {state : ℕ → ProcState} {current idle : ℕ}
    (h : SchedOk run rq procs state current idle) (hp : p ∈ procs) (hr : state p ≠ .PROC_RUNNABLE) :
    SchedOk (if p = current then run else run ++ [p]) (if p = current then rq else update rq p true) procs
      (update state p .PROC_RUNNABLE) current idle := by
  have hrun : p ∉ run := fun hmem => hr ((h.mem p).mp hmem).2.1
  have hidle : p ≠ idle := ne_of_mem_of_not_mem hp h.idle_notMem
  refine ⟨?_, ?_, ?_, h.known, ?_, h.idle_notMem⟩
  · split
    · exact h.nodup
    · rw [List.nodup_append]
      refine ⟨h.nodup, List.nodup_singleton p, ?_⟩
      rintro a ha b hb rfl
      exact hrun (List.mem_singleton.mp hb ▸ ha)
  · split
    · exact h.linked
    · intro q hq
      by_cases hqp : q = p
      · rw [hqp, update_self]
      · rw [update_of_ne hqp]
        exact h.linked q ((List.mem_append.mp hq).resolve_right fun hq => hqp (List.mem_singleton.mp hq))
  · intro q
    by_cases hqp : q = p
    · subst hqp
      rw [update_self]
      split
      case isTrue hcur => exact iff_of_false hrun fun hand => hand.2.2 hcur
      case isFalse hcur =>
        exact iff_of_true (List.mem_append_right _ (List.mem_singleton_self q)) ⟨hp, rfl, hcur⟩
    · rw [update_of_ne hqp, ← h.mem]
      split
      · rfl
      · rw [List.mem_append, List.mem_singleton, or_iff_left hqp]
  · rw [update_of_ne hidle.symm]
    exact h.idleRunnable

/-- **`wakeup_proc`** of a process that is there and no zombie. -/
theorem wakeupProc_ok (hs : SchedOk s.runList s.rq s.procList s.state s.current s.idleproc)
    (hp : p = s.idleproc ∨ p ∈ s.procList) (hz : s.state p ≠ .PROC_ZOMBIE)
    (hu : s.state p ≠ .PROC_UNINIT) : ∃ s', s.wakeupProc p = .ok s' ∧ Wakes s s' ∧
      SchedOk s'.runList s'.rq s.procList s'.state s.current s.idleproc ∧ s'.state p = .PROC_RUNNABLE := by
  by_cases hr : s.state p = .PROC_RUNNABLE
  · refine ⟨s, ?_, Wakes.refl s, hs, hr⟩
    rw [State.wakeupProc, if_neg hz, if_neg (not_not.mpr hr)]
  · have hsleep : s.state p = .PROC_SLEEPING := by
      cases hstate : s.state p with
      | PROC_UNINIT => exact absurd hstate hu
      | PROC_SLEEPING => rfl
      | PROC_RUNNABLE => exact absurd hstate hr
      | PROC_ZOMBIE => exact absurd hstate hz
    have hidle : p ≠ s.idleproc := fun heq => hr (heq ▸ hs.idleRunnable)
    have hmem := hp.resolve_left hidle
    obtain ⟨ts, n, heq⟩ := wakeupProc_eq hz hr hidle fun hrun => hr ((hs.mem p).mp hrun).2.1
    refine ⟨_, heq, ⟨rfl, ?_⟩, hs.wake hmem hr, update_self _ _ _⟩
    intro q
    dsimp only
    by_cases hqp : q = p
    · subst hqp
      rw [update_self, update_self]
      exact Or.inr ⟨hsleep, rfl, rfl⟩
    · rw [update_of_ne hqp, update_of_ne hqp]
      exact Or.inl ⟨rfl, rfl⟩

/-- With the whole invariant. -/
theorem Ok.wakeupProc (h : Ok s) (hp : p = s.idleproc ∨ p ∈ s.procList)
    (hz : s.state p ≠ .PROC_ZOMBIE) : ∃ s', s.wakeupProc p = .ok s' ∧ Wakes s s' ∧ Ok s' := by
  have hu : s.state p ≠ .PROC_UNINIT := by
    rcases hp with rfl | hp
    · rw [h.sched.idleRunnable]
      decide
    · exact h.waits.born p hp
  obtain ⟨s', hrun, hw, hs, -⟩ := wakeupProc_ok h.sched hp hz hu
  exact ⟨s', hrun, hw, h.wakes hw hs⟩

/-! ### `schedule` -/

/-- The next process is taken from the queue. -/
theorem SchedOk.pick {run procs : List ℕ} {rq : ℕ → Bool} {state : ℕ → ProcState} {idle next : ℕ}
    (hnodup : (next :: run).Nodup) (hlinked : ∀ p ∈ next :: run, rq p = true) (hmem : ∀ p, p ∈ next :: run ↔ p ∈ procs ∧ state p = .PROC_RUNNABLE)
    (hidle : state idle = .PROC_RUNNABLE) (hnot : idle ∉ procs) :
    SchedOk run rq procs state next idle := by
  obtain ⟨hnext, hnodup⟩ := List.nodup_cons.mp hnodup
  refine ⟨hnodup, fun p hp => hlinked p (List.mem_cons_of_mem _ hp), ?_, Or.inr ((hmem next).mp List.mem_cons_self).1, hidle, hnot⟩
  intro p
  have hp := hmem p
  rw [List.mem_cons] at hp
  constructor
  · intro hrun
    obtain ⟨hprocs, hstate⟩ := hp.mp (Or.inr hrun)
    exact ⟨hprocs, hstate, ne_of_mem_of_not_mem hrun hnext⟩
  · rintro ⟨hprocs, hstate, hne⟩
    exact (hp.mpr ⟨hprocs, hstate⟩).resolve_left hne

/-- What `schedule` changes. -/
structure Switches (s s' : State) : Prop where
  frame : s' = { s with
    needResched := s'.needResched
    atSchedule := false
    runList := s'.runList
    rq := s'.rq
    timeSlice := s'.timeSlice
    procNum := s'.procNum
    current := s'.current }
  runnable : s.state s'.current = .PROC_RUNNABLE
  sched : SchedOk s'.runList s'.rq s.procList s.state s'.current s.idleproc

/-- **`schedule`** picks a runnable process. -/
theorem schedule_ok (hs : SchedOk s.runList s.rq s.procList s.state s.current s.idleproc) :
    ∃ s', s.schedule = .ok s' ∧ Switches s s' := by
  let s₀ : State := { s with
    needResched := update s.needResched s.current false, atSchedule := false }
  -- the queue with `current`
  have hqueue : ∃ run rq ts n, (if s₀.state s₀.current = .PROC_RUNNABLE then s₀.enqueue s₀.current
      else .ok s₀) = .ok { s₀ with runList := run, rq := rq, timeSlice := ts, procNum := n } ∧ run.Nodup ∧
        (∀ p ∈ run, rq p = true) ∧ ∀ p, p ∈ run ↔ p ∈ s.procList ∧ s.state p = .PROC_RUNNABLE := by
    by_cases hr : s.state s.current = .PROC_RUNNABLE
    · by_cases hidle : s.current = s.idleproc
      · refine ⟨s.runList, s.rq, s.timeSlice, s.procNum, ?_, hs.nodup, hs.linked, ?_⟩
        · exact (if_pos hr).trans (if_pos hidle)
        · intro p
          rw [hs.mem p]
          refine and_congr_right fun hp => and_iff_left ?_
          rw [hidle]
          exact ne_of_mem_of_not_mem hp hs.idle_notMem
      · have hcur := hs.known.resolve_left hidle
        have hnot : s.current ∉ s.runList := fun hmem => ((hs.mem _).mp hmem).2.2 rfl
        refine ⟨s.runList ++ [s.current], _, _, _,
          (if_pos hr).trans ((if_neg hidle).trans (if_neg hnot)), ?_, ?_, ?_⟩
        · rw [List.nodup_append]
          refine ⟨hs.nodup, List.nodup_singleton _, ?_⟩
          rintro a ha b hb rfl
          exact hnot (List.mem_singleton.mp hb ▸ ha)
        · intro p hp
          by_cases hpc : p = s.current
          · rw [hpc]
            exact update_self _ _ _
          · rw [List.mem_append, List.mem_singleton, or_iff_left hpc] at hp
            exact (update_of_ne hpc _ _).trans (hs.linked p hp)
        · intro p
          rw [List.mem_append, List.mem_singleton, hs.mem p]
          by_cases hp : p = s.current
          · exact iff_of_true (Or.inr hp) ⟨hp ▸ hcur, hp ▸ hr⟩
          · rw [or_iff_left hp]
            exact and_congr_right fun _ => and_iff_left hp
    · refine ⟨s.runList, s.rq, s.timeSlice, s.procNum, if_neg hr, hs.nodup, hs.linked, ?_⟩
      intro p
      rw [hs.mem p]
      refine and_congr_right fun _ => and_iff_left_of_imp ?_
      rintro hp rfl
      exact hr hp
  obtain ⟨run, rq, ts, n, heq, hnodup, hlinked, hmem⟩ := hqueue
  rw [State.schedule]
  dsimp only
  rw [heq, bind_ok, State.pickNext]
  cases run with
  | nil =>
    refine ⟨_, rfl, rfl, hs.idleRunnable, ⟨hnodup, hlinked, ?_, Or.inl rfl, hs.idleRunnable, hs.idle_notMem⟩⟩
    intro p
    rw [hmem p]
    refine and_congr_right fun hp => (and_iff_left ?_).symm
    exact ne_of_mem_of_not_mem hp hs.idle_notMem
  | cons next run =>
    dsimp only
    rw [State.dequeue, require_pos ⟨List.mem_cons_self, hlinked next List.mem_cons_self⟩, bind_ok, bind_ok]
    refine ⟨_, rfl, rfl, ((hmem next).mp List.mem_cons_self).2, ?_⟩
    dsimp only
    rw [List.erase_cons_head]
    exact SchedOk.pick hnodup hlinked hmem hs.idleRunnable hs.idle_notMem

theorem Ok.switches (h : Ok s) (hs : Switches s s') : Ok s' := by
  rw [hs.frame]
  exact ⟨h.family, h.pids, hs.sched, h.waits, h.timers, fun _ => hs.runnable, h.init, h.count,
    h.allocNodup, h.alloc⟩

end Ucore.Proc
