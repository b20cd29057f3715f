import Ucore.RoundRobin.Wait

/-!
# The shares of the time

While the timer ticks in user mode and no process gives up the processor, the processes take turns
(`serve_eq`): the list with `current` in front is a `Rota` whose quanta are the time slices.  So each process
gets its time slice in every round (`shares`), five ticks in `default_sched.c`, and in `prio_rr_sched.c` five
times its priority, which counts as 1 below that and as 8 above.
-/

namespace Ucore.RoundRobin

open Function Fallible Relation Transition Turns
open Stride (MAX_TIME_SLICE ProcState)

variable {c : SchedClass} {slice : ℤ → Proc → ℤ} {cap : ℕ} {s s' s₀ m : State} {p q : ℕ}

/-- Who is interrupted by each of the next `n` ticks, all of them in user mode, and the state after them. -/
def State.serve (c : SchedClass) : ℕ → State → Except Panic (List ℕ × State)
  | 0, s => pure ([], s)
  | n + 1, s => do
    let s' ← s.timer c
    let (l, s'') ← s'.serve c n
    pure (s.current :: l, s'')

/-- A process runs that can go on. -/
structure Busy (s : State) : Prop where
  current : s.current ≠ s.idleproc
  runnable : (s.proc s.current).state = .runnable
  needResched : (s.proc s.current).needResched = false

/-- The ticks of a time slice. -/
def State.quantum (slice : ℤ → Proc → ℤ) (s : State) (q : ℕ) : ℕ := (slice MAX_TIME_SLICE (s.proc q)).toNat

/-- The processes with the one that runs in front. -/
def State.order (s : State) : List ℕ := s.current :: s.runList

/-- The turns of a state. -/
def State.rota (s : State) : Rota ℕ := ⟨s.left, s.order⟩

theorem Preempts.quantum_pos (hc : Preempts c slice cap) (s : State) (q : ℕ) : 0 < s.quantum slice q := by
  have hslice := (hc.slice (s.proc q)).1
  rw [State.quantum]
  omega

theorem IsList.quantum_congr (hc : IsList c slice) (h : ∀ q, (s'.proc q).lab6Priority = (s.proc q).lab6Priority) :
    s'.quantum slice = s.quantum slice := by
  funext q
  rw [State.quantum, State.quantum, hc.congr MAX_TIME_SLICE _ _ (h q)]

/-- **A tick** in user mode is one unit of the turns. -/
theorem Preempts.timer_tick (hc : Preempts c slice cap) (h : Inv slice s) (hb : Busy s) :
    ∃ s', s.timer c = .ok s' ∧ Inv slice s' ∧ Busy s' ∧ s'.quantum slice = s.quantum slice ∧
      s'.rota = s.rota.tick (s.quantum slice) := by
  obtain ⟨timeSlice, needResched, htick, hlong, hshort, -⟩ := hc.procTick s.current s h.maxTimeSlice
  have hleft : s.left = max 1 (s.proc s.current).timeSlice.toNat := by
    rw [State.left, if_neg hb.current, if_neg (by rw [hb.needResched]; decide)]
  obtain ⟨m, hm⟩ : ∃ m, m = s.schedClassProcTick c s.current := ⟨_, rfl⟩
  have heq : m = s.setProc s.current { s.proc s.current with timeSlice := timeSlice, needResched := needResched } := by
    rw [hm, State.schedClassProcTick, if_pos hb.current, htick]
  have hcur : m.current = s.current := by rw [heq]; rfl
  have hidle : m.idleproc = s.idleproc := by rw [heq]; rfl
  have hlist : m.runList = s.runList := by rw [heq]; rfl
  have hself : m.proc s.current = { s.proc s.current with timeSlice := timeSlice, needResched := needResched } := by
    rw [heq]
    exact s.setProc_self _ _
  have hother : ∀ q, q ≠ s.current → m.proc q = s.proc q := by
    intro q hq
    rw [heq]
    exact s.setProc_of_ne _ hq
  have hpriority : ∀ q, (m.proc q).lab6Priority = (s.proc q).lab6Priority := by
    intro q
    by_cases hq : q = s.current
    · rw [hq, hself]
    · rw [hother q hq]
  have hinv : Inv slice m := hm ▸ h.procTick hc.isList
  have htimer : s.timer c = m.checkResched c := by rw [hm]; rfl
  have hrota : s.rota = ⟨s.left, s.current :: s.runList⟩ := rfl
  rw [htimer, hrota]
  by_cases hlt : 1 < (s.proc s.current).timeSlice
  · -- the turn goes on
    obtain ⟨rfl, rfl⟩ := hlong hlt
    have hfalse : (m.proc m.current).needResched = false := by
      rw [hcur, hself]
      exact hb.needResched
    have hone := (hc.left_tick h.maxTimeSlice hb.current hm).2 hfalse
    refine ⟨m, if_neg (by rw [hfalse]; decide), hinv, ⟨?_, ?_, hfalse⟩, hc.isList.quantum_congr hpriority, ?_⟩
    · rw [hcur, hidle]
      exact hb.current
    · rw [hcur, hself]
      exact hb.runnable
    · rw [tick_of_lt (by omega), State.rota, State.order, hcur, hlist, ← hone]
      rfl
  · -- the turn is over
    obtain rfl := hshort (by omega)
    have hrun : (m.proc m.current).state = .runnable := by
      rw [hcur, hself]
      exact hb.runnable
    have hnext := hinv.checkResched hc.isList
    rw [hcur, hself] at hnext
    obtain ⟨hfalse, -⟩ | ⟨-, s', hcheck, hs⟩ := hnext
    · exact absurd hfalse (show ¬ true = false by decide)
    have hqueue : m.queue = s.runList ++ [s.current] := by
      rw [State.queue, if_pos ⟨hrun, by rw [hcur, hidle]; exact hb.current⟩, hlist, hcur]
    have horder : m.queue = s'.current :: s'.runList := by
      rcases hs.queue_eq with ⟨hnil, -⟩ | hcons
      · exact absurd (hqueue.symm.trans hnil) (List.append_ne_nil_of_right_ne_nil _ (List.cons_ne_nil _ _))
      · exact hcons
    have hmem : s'.current ∈ m.queue := horder ▸ List.mem_cons_self
    have hnotidle : s'.current ≠ s'.idleproc := by
      rw [hs.idleproc]
      exact fun hc => hinv.idle_not_mem_queue (hc ▸ hmem)
    have hrunnable := (hinv.of_mem_queue hmem).2
    have hresched : (s'.proc s'.current).needResched = false := by
      rw [hs.proc, State.scheduledProc]
      dsimp only
      by_cases hq : s'.current = m.current
      · exact if_pos hq
      · exact (if_neg hq).trans (hinv.needResched _ hq)
    have hslice : (s'.proc s'.current).timeSlice = slice MAX_TIME_SLICE (m.proc s'.current) := by
      rw [hs.proc, State.scheduledProc, ← hinv.maxTimeSlice]
      dsimp only
      by_cases hq : s'.current = m.current
      · exact if_pos ⟨hq, hmem⟩
      · rw [if_neg fun hand : s'.current = m.current ∧ s'.current ∈ m.queue => hq hand.1]
        exact (hinv.queued _ ((mem_queue_of_ne hq).mp hmem)).2.2
    have hquantum : s'.quantum slice = s.quantum slice := by
      refine hc.isList.quantum_congr fun q => ?_
      rw [hs.proc]
      exact hpriority q
    refine ⟨s', hcheck, hs.inv hc.isList hinv, ⟨hnotidle, ?_, hresched⟩, hquantum, ?_⟩
    · rw [hs.proc]
      exact hrunnable
    · have hpos := hc.quantum_pos s s'.current
      have hleft' : s'.left = s.quantum slice s'.current := by
        rw [State.left, if_neg hnotidle, if_neg (by rw [hresched]; decide), hslice, State.quantum,
          hc.isList.congr MAX_TIME_SLICE (m.proc s'.current) (s.proc s'.current) (hpriority _)]
        exact max_eq_right hpos
      rw [tick_of_le (by omega), ← hqueue, horder, start_cons, State.rota, hleft']
      rfl

/-- **The ticks are the units of the turns.** -/
theorem Preempts.serve_eq (hc : Preempts c slice cap) (n : ℕ) (h : Inv slice s) (hb : Busy s) :
    ∃ s', s.serve c n = .ok (served (s.quantum slice) n s.rota, s') ∧ Inv slice s' ∧ Busy s' ∧
      s'.rota = (Rota.tick (s.quantum slice))^[n] s.rota := by
  induction n generalizing s with
  | zero => exact ⟨s, rfl, h, hb, rfl⟩
  | succ n ih =>
    obtain ⟨m, htimer, hm, hbm, hquantum, hrota⟩ := hc.timer_tick h hb
    obtain ⟨s', hserve, h', hb', hrota'⟩ := ih hm hbm
    rw [hquantum, hrota] at hserve hrota'
    refine ⟨s', ?_, h', hb', hrota'⟩
    rw [State.serve, htimer, bind_ok, hserve, bind_ok]
    rfl

/-- **Shares.**  From the start of a turn each process of the list gets its time slice in each full round, and no
process gets more than one further time slice; after full rounds the list is as it was. -/
theorem shares (hc : Preemptive c slice cap) (hreach : Reachable c s) (hb : Busy s)
    (hfresh : (s.proc s.current).timeSlice = slice MAX_TIME_SLICE (s.proc s.current)) (n : ℕ) :
    let total := (s.order.map (s.quantum slice)).sum
    ∃ l s', s.serve c n = .ok (l, s') ∧ l.length = n ∧
      (∀ q ∈ s.order, n / total * s.quantum slice q ≤ l.count q ∧
        l.count q ≤ (n / total + 1) * s.quantum slice q) ∧
      (total ∣ n → s'.order = s.order ∧ ∀ q ∈ s.order, l.count q = n / total * s.quantum slice q) := by
  intro total
  have hpre := hc.preempts
  have hinv := hreach.inv hpre.isList
  obtain ⟨s', hserve, -, -, hrota⟩ := hpre.serve_eq n hinv hb
  have hpos : ∀ q ∈ s.order, 0 < s.quantum slice q := fun q _ => hpre.quantum_pos s q
  have hnd : s.order.Nodup := List.nodup_cons.mpr ⟨hinv.current.1, hinv.nodup⟩
  have htotal : total = (round (s.quantum slice) s.order).length := length_round.symm
  have hstart : s.rota = start (s.quantum slice) s.order := by
    have hslice := hpre.quantum_pos s s.current
    rw [State.order, start_cons, State.rota, State.left, if_neg hb.current,
      if_neg (by rw [hb.needResched]; decide), hfresh]
    exact congrArg (Rota.mk · s.order) (max_eq_right hslice)
  refine ⟨_, s', hserve, ?_, fun q hq => ?_, ?_⟩
  · exact length_served n _ (List.cons_ne_nil _ _)
  · rw [hstart, htotal]
    exact count_served hpos hnd hq n
  · rintro ⟨k, rfl⟩
    have htpos : 0 < total := by
      have hlen : (s.order.map (s.quantum slice)).sum = s.quantum slice s.current +
          (s.runList.map (s.quantum slice)).sum := rfl
      have hslice := hpre.quantum_pos s s.current
      omega
    have hround := served_rounds hpos k
    rw [← htotal, Nat.mul_comm] at hround
    rw [hstart] at hrota ⊢
    rw [hround.2] at hrota
    refine ⟨?_, fun q hq => ?_⟩
    · have horder := congrArg Rota.order hrota
      exact horder
    · rw [Nat.mul_div_cancel_left k htpos, hround.1, List.count_flatten, List.map_replicate, List.sum_replicate_nat,
        count_round hnd hq]

/-- Process 1 has priority 1, process 2 has priority 3. -/
theorem shares_two : ∃ s l s', Reachable prioRrSchedClass s ∧ s.order = [1, 2] ∧
    s.serve prioRrSchedClass 40 = .ok (l, s') ∧ s'.order = [1, 2] ∧ l.count 1 = 10 ∧ l.count 2 = 30 := by
  have hcheck : ((boot prioRrSchedClass).play prioRrSchedClass (fun _ => true)
      [.fork 1, .schedule, .fork 2, .schedule, .setPriority 3, .schedule]).any (fun s => decide (s.order = [1, 2] ∧
        s.current ≠ s.idleproc ∧ (s.proc s.current).state = .runnable ∧ (s.proc s.current).needResched = false ∧
        (s.proc s.current).timeSlice = State.calcTimeSlice MAX_TIME_SLICE (s.proc s.current) ∧
        s.quantum State.calcTimeSlice 1 = 5 ∧ s.quantum State.calcTimeSlice 2 = 15)) = true := by
    decide +kernel
  obtain ⟨s, hplay, hs⟩ := (Option.any_eq_true _ _).mp hcheck
  obtain ⟨horder, hidle, hrun, hresched, hfresh, hone, htwo⟩ := of_decide_eq_true hs
  have hreach := reachable_play hplay
  obtain ⟨l, s', hserve, -, -, hfull⟩ := shares .prioRr hreach ⟨hidle, hrun, hresched⟩ hfresh 40
  have htotal : (s.order.map (s.quantum State.calcTimeSlice)).sum = 20 := by
    rw [horder, List.map_cons, List.map_cons, hone, htwo]
    rfl
  rw [htotal] at hfull
  obtain ⟨horder', hcount⟩ := hfull (by decide)
  refine ⟨s, l, s', hreach, horder, hserve, horder'.trans horder, ?_, ?_⟩
  · rw [hcount 1 (by rw [horder]; decide), hone]
  · rw [hcount 2 (by rw [horder]; decide), htwo]

end Ucore.RoundRobin
