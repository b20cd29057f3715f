import Ucore.Stride.Pool

/-!
# One call of `schedule`

`Ready s t` is the state between two calls: a run queue with the heap `t`, without `current` and without
`idleproc`.  `schedule` puts `current` into the queue if it is runnable, and takes the process with the
least true stride out (`schedule_ok`).  If the strides in the queue that it picks from are near each
other, so are those of the process picked and of the rest afterwards (`Scheduled.allNear`).
-/

namespace Ucore.Stride

open Function Fallible HeapTree HeapTree.BinTree

variable {s s' : State} {p q : ℕ} {t : BinTree ℕ}

/-- The state between two calls. -/
structure Ready (s : State) (t : BinTree ℕ) : Prop where
  pool : IsPool s t
  stored : Stored s
  current : s.current ∉ s.runList
  idleproc : s.idleproc ∉ s.runList

/-- The processes that are in the queue or may come into it without being woken up. -/
def State.competes (s : State) : List ℕ :=
  if s.current = s.idleproc then s.runList else s.current :: s.runList

/-- The queue that `schedule` picks from. -/
def State.queue (s : State) : List ℕ :=
  if (s.proc s.current).state = .runnable ∧ s.current ≠ s.idleproc then s.runList ++ [s.current]
  else s.runList

theorem mem_competes : p ∈ s.competes ↔ p ∈ s.runList ∨ p = s.current ∧ p ≠ s.idleproc := by
  rw [State.competes]
  split
  case isTrue heq =>
    refine ⟨.inl, fun hor => hor.resolve_right ?_⟩
    rintro ⟨rfl, hne⟩
    exact hne heq
  case isFalse hne =>
    rw [List.mem_cons]
    constructor
    · rintro (rfl | hmem)
      · exact .inr ⟨rfl, hne⟩
      · exact .inl hmem
    · rintro (hmem | ⟨heq, -⟩)
      · exact .inr hmem
      · exact .inl heq

theorem mem_competes_of_mem_queue (h : p ∈ s.queue) : p ∈ s.competes := by
  rw [State.queue] at h
  rw [mem_competes]
  split at h
  case isTrue hjoin =>
    rw [List.mem_append, List.mem_singleton] at h
    exact h.imp_right fun heq => ⟨heq, heq ▸ hjoin.2⟩
  case isFalse => exact .inl h

theorem Ready.idleproc_not_mem_queue (h : Ready s t) : s.idleproc ∉ s.queue := by
  rw [State.queue]
  split
  case isTrue hjoin =>
    rw [List.mem_append, List.mem_singleton, not_or]
    exact ⟨h.idleproc, hjoin.2.symm⟩
  case isFalse => exact h.idleproc

/-- What `schedule` does beside the heap. -/
structure Scheduled (s s' : State) : Prop where
  idleproc : s'.idleproc = s.idleproc
  state : ∀ q, (s'.proc q).state = (s.proc q).state
  allocated : ∀ q, (s'.proc q).allocated = (s.proc q).allocated
  priority : ∀ q, (s.proc q).lab6Priority ≠ 0 → (s'.proc q).lab6Priority = (s.proc q).lab6Priority
  other : ∀ q, q ≠ s'.current → s'.key q = s.key q ∧ (s'.proc q).runs = (s.proc q).runs
  picked : s.queue = [] ∧ s'.current = s.idleproc ∧ s'.key s'.current = s.key s'.current ∧
      s'.runList = [] ∨
    s'.current ∈ s.queue ∧ (∀ q ∈ s.queue, s.key s'.current ≤ s.key q) ∧
      s'.key s'.current = s.key s'.current + stepOf (s.proc s'.current) ∧
      (s'.proc s'.current).runs = (s.proc s'.current).runs + 1 ∧ s'.runList = s.queue.erase s'.current

/-- The fields that the run queue does not look at may change. -/
theorem Ready.setProc (h : Ready s t) (P : Proc) (hrq : P.rq = (s.proc p).rq)
    (hstored : P.lab6Stride = BitVec.ofNat 32 P.trueStride)
    (hkey : p ∈ s.runList → P.trueStride = s.key p) : Ready (s.setProc p P) t := by
  have hself := s.setProc_self p P
  have hother : ∀ q, q ≠ p → (s.setProc p P).proc q = s.proc q := fun q hq => s.setProc_of_ne P hq
  refine ⟨h.pool.congr rfl rfl rfl rfl (fun q => ?_) fun q hmem => ?_, fun q => ?_, h.current, h.idleproc⟩
  · rcases eq_or_ne q p with rfl | hq
    · rw [hself, hrq]
    · rw [hother q hq]
  · rcases eq_or_ne q p with rfl | hq
    · rw [State.key, hself, hkey hmem]
    · rw [State.key, hother q hq]
  · rcases eq_or_ne q p with rfl | hq
    · rw [hself]
      exact hstored
    · rw [hother q hq]
      exact h.stored q

theorem stored_advance {P : Proc} (h : P.lab6Stride = BitVec.ofNat 32 P.trueStride) :
    P.advance.lab6Stride = BitVec.ofNat 32 P.advance.trueStride := by
  rw [Proc.advance, h, BitVec.ofNat_add, BitVec.ofNat_toNat, BitVec.setWidth_eq]

/-- Setting a priority of 0 to 1 leaves the step as it is. -/
theorem stepOf_fixed (P Q : Proc)
    (h : Q.lab6Priority = if P.lab6Priority = 0 then 1 else P.lab6Priority) : stepOf Q = stepOf P := by
  rw [stepOf, stepOf, h]
  by_cases hzero : P.lab6Priority = 0
  · rw [if_pos hzero, if_neg (by decide)]
  · rw [if_neg hzero, if_neg hzero]

/-- The queue after the first half of `schedule`. -/
structure Queued (s m : State) : Prop where
  runList : m.runList = s.queue
  current : m.current = s.current
  idleproc : m.idleproc = s.idleproc
  key : ∀ q, m.key q = s.key q
  runs : ∀ q, (m.proc q).runs = (s.proc q).runs
  state : ∀ q, (m.proc q).state = (s.proc q).state
  allocated : ∀ q, (m.proc q).allocated = (s.proc q).allocated
  priority : ∀ q, (m.proc q).lab6Priority = (s.proc q).lab6Priority ∨
    (m.proc q).lab6Priority = if (s.proc q).lab6Priority = 0 then 1 else (s.proc q).lab6Priority

theorem enqueueCurrent_ok (h : Ready s t) (hnear : AllNear s s.queue) :
    ∃ m u, (∀ depth, s.runList.length + 1 < depth →
        (if (s.proc s.current).state = .runnable then s.schedClassEnqueue depth s.current else pure s) =
          .ok m) ∧ Queued s m ∧ IsPool m u ∧ Stored m := by
  by_cases hrun : (s.proc s.current).state = .runnable
  · by_cases hidle : s.current = s.idleproc
    · refine ⟨s, t, fun depth _ => ?_, ⟨?_, rfl, rfl, fun _ => rfl, fun _ => rfl, fun _ => rfl,
        fun _ => rfl, fun _ => .inl rfl⟩, h.pool, h.stored⟩
      · rw [if_pos hrun, State.schedClassEnqueue, if_neg (not_not.2 hidle)]
      · rw [State.queue, if_neg fun hjoin => hjoin.2 hidle]
    · have hqueue : s.queue = s.runList ++ [s.current] := if_pos ⟨hrun, hidle⟩
      obtain ⟨m, u, henq, hm, hpool⟩ := strideEnqueue_ok h.pool h.stored h.current (hnear.subset
        fun q hq => by rwa [hqueue, List.mem_append, List.mem_singleton, or_comm, ← List.mem_cons])
      have hfield : ∀ q, q ≠ s.current → m.proc q = s.proc q := hm.other
      refine ⟨m, u, fun depth hdepth => ?_, ⟨?_, hm.current, hm.idleproc, fun q => ?_, fun q => ?_,
        fun q => ?_, fun q => ?_, fun q => ?_⟩, hpool, fun q => ?_⟩
      · rw [if_pos hrun, State.schedClassEnqueue, if_pos hidle]
        exact henq depth hdepth
      · rw [hm.runList, hqueue]
      all_goals rcases eq_or_ne q s.current with rfl | hq
      · rw [State.key, hm.proc]
      · rw [State.key, hfield q hq]
      · rw [hm.proc]
      · rw [hfield q hq]
      · rw [hm.proc]
      · rw [hfield q hq]
      · rw [hm.proc]
      · rw [hfield q hq]
      · rw [hm.proc]
        exact .inr rfl
      · rw [hfield q hq]
        exact .inl rfl
      · rw [hm.proc]
        exact h.stored _
      · rw [hfield q hq]
        exact h.stored q
  · refine ⟨s, t, fun depth _ => if_neg hrun, ⟨?_, rfl, rfl, fun _ => rfl, fun _ => rfl, fun _ => rfl,
      fun _ => rfl, fun _ => .inl rfl⟩, h.pool, h.stored⟩
    rw [State.queue, if_neg fun hjoin => hrun hjoin.1]

theorem clearResched_proc (s : State) (q : ℕ) : s.clearResched.proc q =
    { s.proc q with needResched := (s.clearResched.proc q).needResched } := by
  rcases eq_or_ne q s.current with rfl | hq
  · rw [State.clearResched, State.setProc_self]
  · rw [State.clearResched, State.setProc_of_ne _ _ hq]

/-- The fields of `Queued` do not see the flag that `schedule` clears first. -/
theorem Queued.of_clear {m : State} (h : Queued s.clearResched m) : Queued s m := by
  have hcur : s.clearResched.current = s.current := rfl
  have hidle : s.clearResched.idleproc = s.idleproc := rfl
  have hlist : s.clearResched.runList = s.runList := rfl
  have hfield := clearResched_proc s
  refine ⟨?_, h.current, h.idleproc, fun q => ?_, fun q => ?_, fun q => ?_, fun q => ?_, fun q => ?_⟩
  · rw [h.runList, State.queue, State.queue, hcur, hidle, hlist, hfield s.current]
  · rw [h.key, State.key, hfield q]
  · rw [h.runs, hfield q]
  · rw [h.state, hfield q]
  · rw [h.allocated, hfield q]
  · rw [show (s.proc q).lab6Priority = (s.clearResched.proc q).lab6Priority by rw [hfield q]]
    exact h.priority q

theorem procRun_proc_self : (s.procRun p).proc p = { s.proc p with runs := (s.proc p).runs + 1 } :=
  s.setProc_self p _

theorem procRun_proc_of_ne (h : q ≠ p) : (s.procRun p).proc q = s.proc q := s.setProc_of_ne _ h

theorem procRun_key : (s.procRun p).key q = s.key q := by
  rcases eq_or_ne q p with rfl | hq
  · rw [State.key, procRun_proc_self]
  · rw [State.key, procRun_proc_of_ne hq]

/-- A process outside the queue becomes `current`. -/
theorem ready_procRun (h : IsPool s t) (hs : Stored s) (hp : p ∉ s.runList)
    (hidle : s.idleproc ∉ s.runList) : Ready (s.procRun p) t := by
  refine ⟨h.congr rfl rfl rfl rfl (fun q => ?_) fun q _ => procRun_key, fun q => ?_, hp, hidle⟩
  · rcases eq_or_ne q p with rfl | hq
    · rw [procRun_proc_self]
    · rw [procRun_proc_of_ne hq]
  · rcases eq_or_ne q p with rfl | hq
    · rw [procRun_proc_self]
      exact hs q
    · rw [procRun_proc_of_ne hq]
      exact hs q

theorem schedClassEnqueue_mono {depth depth' : ℕ} (h : s.schedClassEnqueue depth p = .ok s')
    (hle : depth ≤ depth') : s.schedClassEnqueue depth' p = .ok s' := by
  rw [State.schedClassEnqueue] at h ⊢
  split
  case isTrue hne =>
    rw [if_pos hne] at h
    exact strideEnqueue_mono h hle
  case isFalse heq =>
    rw [if_neg heq] at h
    exact h

theorem runNext_mono {depth depth' : ℕ} (h : s.runNext depth = .ok s') (hle : depth ≤ depth') :
    s.runNext depth' = .ok s' := by
  rw [State.runNext] at h ⊢
  generalize s.stridePickNext = picked at h ⊢
  rcases picked with ⟨_ | next, m⟩
  · exact h
  · obtain ⟨m', hdeq, h⟩ := bind_eq_ok.1 h
    exact bind_eq_ok.2 ⟨m', strideDequeue_mono hdeq hle, h⟩

theorem schedule_mono {depth depth' : ℕ} (h : s.schedule depth = .ok s') (hle : depth ≤ depth') :
    s.schedule depth' = .ok s' := by
  rw [State.schedule] at h ⊢
  split
  case isTrue hrun =>
    rw [if_pos hrun] at h
    obtain ⟨m, henq, h⟩ := bind_eq_ok.1 h
    exact bind_eq_ok.2 ⟨m, schedClassEnqueue_mono henq hle, runNext_mono h hle⟩
  case isFalse hrun =>
    rw [if_neg hrun] at h
    exact runNext_mono h hle

/-- **`schedule`** comes back, and picks the process of the queue with the least true stride. -/
theorem schedule_ok (h : Ready s t) (hnear : AllNear s s.queue) :
    ∃ s' t' N, (∀ depth, N ≤ depth → s.schedule depth = .ok s') ∧ Ready s' t' ∧ Scheduled s s' := by
  have hc : Ready s.clearResched t := h.setProc _ rfl (h.stored _) fun _ => rfl
  have hqueue : s.clearResched.queue = s.queue := by
    rw [State.queue, State.queue, clearResched_proc s]
    rfl
  have hnearc : AllNear s.clearResched s.clearResched.queue := by
    intro a ha b hb
    rw [State.key, State.key, clearResched_proc s a, clearResched_proc s b]
    exact hnear a (hqueue ▸ ha) b (hqueue ▸ hb)
  obtain ⟨m, u, henq, hm, hpool, hstored⟩ := enqueueCurrent_ok hc hnearc
  replace hm := hm.of_clear
  have hnearm : AllNear m m.runList := by
    intro a ha b hb
    rw [hm.key a, hm.key b]
    rw [hm.runList] at ha hb
    exact hnear a ha b hb
  have hstart : ∀ depth, s.runList.length + 1 < depth → s.schedule depth = m.runNext depth := by
    intro depth hdepth
    have hthen := henq depth hdepth
    rw [State.schedule]
    by_cases hrun : (s.clearResched.proc s.clearResched.current).state = .runnable
    · rw [if_pos hrun] at hthen ⊢
      rw [hthen, bind_ok]
    · rw [if_neg hrun] at hthen ⊢
      cases hthen
      rfl
  by_cases hempty : m.runList = []
  · refine ⟨m.procRun m.idleproc, u, s.runList.length + 2, fun depth hdepth => ?_, ?_, ?_⟩
    · rw [hstart depth hdepth, State.runNext, stridePickNext_none hpool hempty]
      rfl
    · refine ready_procRun hpool hstored ?_ ?_
      · rw [hempty]
        exact List.not_mem_nil
      · rw [hempty]
        exact List.not_mem_nil
    · have hcur : (m.procRun m.idleproc).current = s.idleproc := hm.idleproc
      refine ⟨hm.idleproc, fun q => ?_, fun q => ?_, fun q hq => ?_, fun q hq => ?_, .inl ⟨?_, hcur, ?_, ?_⟩⟩
      · rw [← hm.state q]
        rcases eq_or_ne q m.idleproc with rfl | hq
        · rw [procRun_proc_self]
        · rw [procRun_proc_of_ne hq]
      · rw [← hm.allocated q]
        rcases eq_or_ne q m.idleproc with rfl | hq
        · rw [procRun_proc_self]
        · rw [procRun_proc_of_ne hq]
      · have hprio : ((m.procRun m.idleproc).proc q).lab6Priority = (m.proc q).lab6Priority := by
          rcases eq_or_ne q m.idleproc with rfl | hq
          · rw [procRun_proc_self]
          · rw [procRun_proc_of_ne hq]
        rw [hprio]
        exact (hm.priority q).elim id fun heq => heq.trans (if_neg hq)
      · have hne : q ≠ m.idleproc := hq
        rw [procRun_key, procRun_proc_of_ne hne]
        exact ⟨hm.key q, hm.runs q⟩
      · rw [← hm.runList]
        exact hempty
      · exact procRun_key.trans (hm.key _)
      · exact hempty
  · obtain ⟨p, m₁, m', u', hpick, hdeq, hpicked, hpool'⟩ := pick_ok hpool hstored hnearm hempty
    have hstored' : Stored m' := by
      intro q
      rcases eq_or_ne q p with rfl | hq
      · rw [hpicked.proc]
        exact stored_advance (hstored q)
      · rw [hpicked.other q hq]
        exact hstored q
    refine ⟨m'.procRun p, u', s.runList.length + m.runList.length + 2, fun depth hdepth => ?_, ?_, ?_⟩
    · rw [hstart depth (by omega), State.runNext, hpick]
      exact congrArg (fun x : Except Panic State => x >>= fun s => pure (s.procRun p))
        (hdeq depth (by omega))
    · refine ready_procRun hpool' hstored' ?_ ?_
      · rw [hpicked.runList, hpool.nodup.mem_erase_iff]
        exact fun hmem => hmem.1 rfl
      · rw [hpicked.runList, hpicked.idleproc, hm.idleproc]
        intro hmem
        exact h.idleproc_not_mem_queue (hm.runList ▸ List.mem_of_mem_erase hmem)
    · have hstate : ∀ q, ((m'.procRun p).proc q).state = (m.proc q).state ∧
          ((m'.procRun p).proc q).allocated = (m.proc q).allocated := by
        intro q
        rcases eq_or_ne q p with rfl | hq
        · rw [procRun_proc_self, hpicked.proc]
          exact ⟨rfl, rfl⟩
        · rw [procRun_proc_of_ne hq, hpicked.other q hq]
          exact ⟨rfl, rfl⟩
      have hkey : (m'.procRun p).key p = s.key p + stepOf (s.proc p) := by
        have hstep : stepOf (m.proc p) = stepOf (s.proc p) := by
          rcases hm.priority p with heq | heq
          · rw [stepOf, stepOf, heq]
          · exact stepOf_fixed _ _ heq
        rw [procRun_key, State.key, hpicked.proc, ← hm.key p, ← hstep]
        rfl
      refine ⟨hpicked.idleproc.trans hm.idleproc, fun q => (hstate q).1.trans (hm.state q),
        fun q => (hstate q).2.trans (hm.allocated q), fun q hq => ?_, fun q hq => ?_,
        .inr ⟨?_, fun q hq => ?_, hkey, ?_, ?_⟩⟩
      · have hprio : (m.proc q).lab6Priority = (s.proc q).lab6Priority :=
          (hm.priority q).elim id fun heq => heq.trans (if_neg hq)
        rcases eq_or_ne q p with rfl | hqp
        · rw [procRun_proc_self, hpicked.proc]
          exact (if_neg (hprio ▸ hq)).trans hprio
        · rw [procRun_proc_of_ne hqp, hpicked.other q hqp]
          exact hprio
      · have hne : q ≠ p := hq
        rw [procRun_key, State.key, procRun_proc_of_ne hne, hpicked.other q hq]
        exact ⟨hm.key q, hm.runs q⟩
      · show p ∈ s.queue
        rw [← hm.runList]
        exact hpicked.mem
      · show s.key p ≤ s.key q
        rw [← hm.key p, ← hm.key q]
        exact hpicked.least q (hm.runList.symm ▸ hq)
      · show ((m'.procRun p).proc p).runs = (s.proc p).runs + 1
        rw [procRun_proc_self, hpicked.proc, ← hm.runs p]
        rfl
      · show m'.runList = s.queue.erase p
        rw [hpicked.runList, hm.runList]

/-- After `schedule`, those that compete come from the queue. -/
theorem Scheduled.competes_subset (h : Scheduled s s') : ∀ q ∈ s'.competes, q ∈ s.queue := by
  intro q hq
  rw [mem_competes, h.idleproc] at hq
  rcases h.picked with ⟨-, hcur, -, hnil⟩ | ⟨hmem, -, -, -, hlist⟩
  · rw [hnil, hcur] at hq
    rcases hq with hnot | ⟨rfl, hne⟩
    · cases hnot
    · exact absurd rfl hne
  · rcases hq with hrest | ⟨rfl, -⟩
    · exact List.mem_of_mem_erase (hlist ▸ hrest)
    · exact hmem

/-- Picking the least keeps the strides near: it moves by at most `BIG_STRIDE`. -/
theorem Scheduled.allNear (h : Scheduled s s') (hnear : AllNear s s.queue) :
    AllNear s' s'.competes := by
  intro a ha b hb
  replace ha := h.competes_subset a ha
  replace hb := h.competes_subset b hb
  obtain ⟨h1, h2⟩ := hnear a ha b hb
  rcases h.picked with ⟨hempty, -⟩ | ⟨hmem, hleast, hkey, -, -⟩
  · rw [hempty] at ha
    cases ha
  have hstep := stepOf_le (s.proc s'.current)
  have hlea := hleast a ha
  have hleb := hleast b hb
  by_cases hap : a = s'.current
  · by_cases hbp : b = s'.current
    · rw [hap, hbp]
      exact ⟨Nat.le_add_right _ _, Nat.le_add_right _ _⟩
    · rw [hap, hkey, (h.other b hbp).1]
      rw [hap] at h2
      constructor <;> omega
  · rw [(h.other a hap).1]
    by_cases hbp : b = s'.current
    · rw [hbp, hkey]
      rw [hbp] at h1
      constructor <;> omega
    · rw [(h.other b hbp).1]
      exact ⟨h1, h2⟩

end Ucore.Stride
