import Ucore.Lib.Turns
import Ucore.RoundRobin.Runs

/-!
# Nobody waits forever

A process in the list has to wait until those before it have run.  `State.wait` adds up what `current` and
those before `p` have left of their time slices; it goes down with each tick in user mode, and nothing that the
other processes do makes it grow.  So in every run `p` has run before that many ticks are over
(`wait_bounded`).  This holds of `default_sched.c` and `prio_rr_sched.c`.  In `fifo_sched.c` a tick does not end
the turn of a process; what holds there, and in all three classes, is that the processes run in the order in
which they came into the list (`first_come_first_served`).
-/

namespace Ucore.RoundRobin

open Function Fallible Relation Transition Turns
open Stride (MAX_TIME_SLICE ProcState)

variable {c : SchedClass} {slice : ℤ → Proc → ℤ} {cap : ℕ} {s s' m : State} {p q : ℕ} {op : Op}

/-! ### A step before it comes to `schedule` -/

/-- What `op` does while `current` keeps running. -/
structure Quiet (c : SchedClass) (slice : ℤ → Proc → ℤ) (op : Op) (s m : State) : Prop where
  current : m.current = s.current
  idleproc : m.idleproc = s.idleproc
  runList : ∃ as, m.runList = s.runList ++ as
  queued : ∀ q ∈ s.runList, (m.proc q).timeSlice = (s.proc q).timeSlice
  other : ∀ q, q ≠ s.current → (m.proc q).timeSlice = (s.proc q).timeSlice ∨
    ∃ P, (m.proc q).timeSlice = slice MAX_TIME_SLICE P
  runner : m = s.schedClassProcTick c s.current ∧ (op = .tick ∨ op = .timer) ∨
    (m.proc s.current).timeSlice = (s.proc s.current).timeSlice ∧ op ≠ .tick ∧ op ≠ .timer ∧
      ((m.proc s.current).needResched = (s.proc s.current).needResched ∨
        op = .yield ∧ (m.proc s.current).needResched = true)

/-- Only `current` changes. -/
theorem Inv.quiet_current (h : Inv slice s) {P : Proc}
    (hrunner : s.setProc s.current P = s.schedClassProcTick c s.current ∧ (op = .tick ∨ op = .timer) ∨
      P.timeSlice = (s.proc s.current).timeSlice ∧ op ≠ .tick ∧ op ≠ .timer ∧
        (P.needResched = (s.proc s.current).needResched ∨ op = .yield ∧ P.needResched = true)) :
    Quiet c slice op s (s.setProc s.current P) := by
  have hother : ∀ q, q ≠ s.current → (s.setProc s.current P).proc q = s.proc q := fun q hq => s.setProc_of_ne P hq
  refine ⟨rfl, rfl, ⟨[], (List.append_nil _).symm⟩, fun q hq => ?_, fun q hq => .inl (by rw [hother q hq]), ?_⟩
  · rw [hother q fun heq => h.current.1 (heq ▸ hq)]
  · rw [State.setProc_self]
    exact hrunner

/-- A process joins the list. -/
theorem Inv.quiet_join (h : Inv slice s) {P : Proc} (hp : p ∉ s.runList)
    (hcur : p ≠ s.current) (htick : op ≠ .tick ∧ op ≠ .timer) :
    Quiet c slice op s ((s.setProc p P).link slice p) := by
  have hself : ((s.setProc p P).link slice p).proc p = { P with timeSlice := slice MAX_TIME_SLICE P, rq := true } := by
    refine (update_self _ _ _).trans ?_
    rw [s.setProc_self p P, ← h.maxTimeSlice]
    rfl
  have hother : ∀ q, q ≠ p → ((s.setProc p P).link slice p).proc q = s.proc q := fun q hq =>
    (update_of_ne hq _ _).trans (s.setProc_of_ne P hq)
  refine ⟨rfl, rfl, ⟨[p], rfl⟩, fun q hq => ?_, fun q _ => ?_, .inr ⟨?_, htick.1, htick.2, .inl ?_⟩⟩
  · rw [hother q fun heq => hp (heq ▸ hq)]
  · by_cases hqp : q = p
    · subst hqp
      rw [hself]
      exact .inr ⟨P, rfl⟩
    · rw [hother q hqp]
      exact .inl rfl
  · rw [hother _ hcur.symm]
  · rw [hother _ hcur.symm]

theorem Inv.quiet_tick (hc : IsList c slice) (h : Inv slice s) (hop : op = .tick ∨ op = .timer) :
    Quiet c slice op s (s.schedClassProcTick c s.current) := by
  have htick : ∃ P, s.schedClassProcTick c s.current = s.setProc s.current P := by
    rw [State.schedClassProcTick]
    split
    · obtain ⟨timeSlice, needResched, htick⟩ := hc.procTick s.current s
      exact ⟨_, htick⟩
    · exact ⟨_, rfl⟩
  obtain ⟨P, hP⟩ := htick
  rw [hP]
  exact h.quiet_current (.inl ⟨hP.symm, hop⟩)

theorem Quiet.refl (s : State) (htick : op ≠ .tick ∧ op ≠ .timer) : Quiet c slice op s s :=
  ⟨rfl, rfl, ⟨[], (List.append_nil _).symm⟩, fun _ _ => rfl, fun _ _ => .inl rfl,
    .inr ⟨rfl, htick.1, htick.2, .inl rfl⟩⟩

/-- **What a step does.**  It leaves `current` as it is, or comes to `schedule`. -/
theorem Inv.next_cases (hc : IsList c slice) (h : Inv slice s) (hnext : Next c s op s') :
    ∃ m, Inv slice m ∧ Quiet c slice op s m ∧
      (m = s' ∧ op ≠ .schedule ∧ (op = .timer → (m.proc m.current).needResched = false) ∨
        Scheduled slice m s' ∧ (op = .schedule ∨ (m.proc m.current).needResched = true)) := by
  obtain ⟨hop, hrun⟩ := hnext
  have hcheck : ∀ m, Inv slice m → Quiet c slice op s m → op ≠ .schedule → m.checkResched c = .ok s' →
      ∃ m, Inv slice m ∧ Quiet c slice op s m ∧
        (m = s' ∧ op ≠ .schedule ∧ (op = .timer → (m.proc m.current).needResched = false) ∨
          Scheduled slice m s' ∧ (op = .schedule ∨ (m.proc m.current).needResched = true)) := by
    intro m hm hquiet hne hcheck
    refine ⟨m, hm, hquiet, ?_⟩
    rcases hm.checkResched hc with ⟨hfalse, heq⟩ | ⟨htrue, s'', heq, hs⟩
    · exact .inl ⟨Except.ok.inj (heq.symm.trans hcheck), hne, fun _ => hfalse⟩
    · obtain rfl := Except.ok.inj (heq.symm.trans hcheck)
      exact .inr ⟨hs, .inr htrue⟩
  have hquiet : ∀ m, m = s' → Quiet c slice op s m → op ≠ .schedule → op ≠ .timer →
      ∃ m, Inv slice m ∧ Quiet c slice op s m ∧
        (m = s' ∧ op ≠ .schedule ∧ (op = .timer → (m.proc m.current).needResched = false) ∨
          Scheduled slice m s' ∧ (op = .schedule ∨ (m.proc m.current).needResched = true)) :=
    fun m heq hquiet hne hne' =>
      ⟨m, heq ▸ h.next hc ⟨hop, hrun⟩, hquiet, .inl ⟨heq, hne, fun htimer => absurd htimer hne'⟩⟩
  cases op with
  | fork p =>
    have hp : p ∉ s.runList := fun hmem => Bool.false_ne_true (hop.symm.trans (h.queued p hmem).1)
    have hcur : p ≠ s.current := fun heq => Bool.false_ne_true (hop.symm.trans (heq ▸ h.current.2))
    have hidle : p ≠ s.idleproc := fun heq => Bool.false_ne_true (hop.symm.trans (heq ▸ h.idleproc.2.1))
    have hself := s.setProc_self p ⟨true, .uninit, false, 0, false, 0, 1⟩
    have hstate : ((s.allocProc p).proc p).state = .uninit := congrArg Proc.state hself
    have hinv' : Inv slice (s.allocProc p) :=
      h.setProc hp rfl (fun heq => absurd heq hcur) (fun heq => absurd heq hidle) (fun _ hrun => by cases hrun)
        fun _ => rfl
    rcases hinv'.wakeupProc hc (by rw [hstate]; decide) with ⟨hr, -⟩ | ⟨heq, -⟩ | ⟨-, -, -, hwake⟩
    · exact absurd (hstate.symm.trans hr) (by decide)
    · exact absurd heq hcur
    · have heq : (s.allocProc p).setProc p { (s.allocProc p).proc p with state := .runnable } =
          s.setProc p { (s.allocProc p).proc p with state := .runnable } := by
        rw [State.allocProc, State.setProc, State.setProc, State.setProc]
        simp only [update_idem]
      rw [heq] at hwake
      exact hquiet _ (Except.ok.inj (hwake.symm.trans hrun)) (h.quiet_join hp hcur ⟨nofun, nofun⟩) nofun nofun
  | wakeup p =>
    rcases h.wakeupProc hc hop.2 with ⟨-, hwake⟩ | ⟨heq, hwake⟩ | ⟨hp, hcur, -, hwake⟩
    · exact hquiet s (Except.ok.inj (hwake.symm.trans hrun)) (Quiet.refl s ⟨nofun, nofun⟩) nofun nofun
    · subst heq
      exact hquiet _ (Except.ok.inj (hwake.symm.trans hrun))
        (h.quiet_current (.inr ⟨rfl, nofun, nofun, .inl rfl⟩)) nofun nofun
    · exact hquiet _ (Except.ok.inj (hwake.symm.trans hrun)) (h.quiet_join hp hcur ⟨nofun, nofun⟩) nofun nofun
  | sleep =>
    exact hquiet _ (Except.ok.inj hrun) (h.quiet_current (.inr ⟨rfl, nofun, nofun, .inl rfl⟩)) nofun nofun
  | exit =>
    exact hquiet _ (Except.ok.inj hrun) (h.quiet_current (.inr ⟨rfl, nofun, nofun, .inl rfl⟩)) nofun nofun
  | tick => exact hquiet _ (Except.ok.inj hrun) (h.quiet_tick hc (.inl rfl)) nofun nofun
  | timer => exact hcheck _ (h.procTick hc) (h.quiet_tick hc (.inr rfl)) nofun hrun
  | check => exact hcheck s h (Quiet.refl s ⟨nofun, nofun⟩) nofun hrun
  | yield =>
    exact hquiet _ (Except.ok.inj hrun) (h.quiet_current (.inr ⟨rfl, nofun, nofun, .inr ⟨rfl, rfl⟩⟩)) nofun nofun
  | setPriority priority =>
    exact hquiet _ (Except.ok.inj hrun) (h.quiet_current (.inr ⟨rfl, nofun, nofun, .inl rfl⟩)) nofun nofun
  | free p =>
    have hp : p ∉ s.runList := fun hmem => absurd (hop.1.symm.trans (h.queued p hmem).2.1) (by decide)
    have hother : ∀ q, (s.freeProc p).proc q = if q = p then { s.proc p with allocated := false } else s.proc q :=
      fun q => update_apply _ _ _ _
    have hslice : ∀ q, ((s.freeProc p).proc q).timeSlice = (s.proc q).timeSlice := by
      intro q
      rw [hother]
      split
      case isTrue heq => rw [heq]
      case isFalse => rfl
    refine hquiet _ (Except.ok.inj hrun) ⟨rfl, rfl, ⟨[], (List.append_nil _).symm⟩, fun q _ => hslice q,
      fun q _ => .inl (hslice q), .inr ⟨hslice _, nofun, nofun, .inl ?_⟩⟩ nofun nofun
    rw [hother, if_neg hop.2.symm]
  | schedule =>
    obtain ⟨s'', hrun', hs⟩ := h.schedule hc
    obtain rfl := Except.ok.inj (hrun'.symm.trans hrun)
    exact ⟨s, h, Quiet.refl s ⟨nofun, nofun⟩, .inr ⟨hs, .inl rfl⟩⟩

/-! ### What a tick does to the time that is left -/

/-- The two classes in which a tick can end the turn of a process, with the longest time slice. -/
inductive Preemptive : SchedClass → (ℤ → Proc → ℤ) → ℕ → Prop
  | rr : Preemptive defaultSchedClass State.rrSlice 5
  | prioRr : Preemptive prioRrSchedClass State.calcTimeSlice 40

/-- What the two classes have in common. -/
structure Preempts (c : SchedClass) (slice : ℤ → Proc → ℤ) (cap : ℕ) : Prop where
  isList : IsList c slice
  slice : ∀ P, 0 < slice MAX_TIME_SLICE P ∧ slice MAX_TIME_SLICE P ≤ cap
  procTick : ∀ p s, s.maxTimeSlice = MAX_TIME_SLICE → ∃ timeSlice needResched,
    c.procTick p s = s.setProc p { s.proc p with timeSlice := timeSlice, needResched := needResched } ∧
      (1 < (s.proc p).timeSlice → timeSlice = (s.proc p).timeSlice - 1 ∧ needResched = (s.proc p).needResched) ∧
      ((s.proc p).timeSlice ≤ 1 → needResched = true) ∧ ((s.proc p).timeSlice ≤ cap → timeSlice ≤ cap)

theorem calcTimeSlice_bounds (P : Proc) :
    5 ≤ State.calcTimeSlice MAX_TIME_SLICE P ∧ State.calcTimeSlice MAX_TIME_SLICE P ≤ 40 := by
  simp only [State.calcTimeSlice, MAX_TIME_SLICE, MAX_PRIORITY_SLICE]
  split <;> split <;> omega

theorem Preemptive.preempts (h : Preemptive c slice cap) : Preempts c slice cap := by
  have hdec : ∀ t : ℤ, 0 < t → (if 0 < t then t - 1 else t) = t - 1 := fun _ hpos => if_pos hpos
  cases h with
  | rr =>
    have hbounds : (0 : ℤ) < 5 ∧ (5 : ℤ) ≤ (5 : ℕ) := by decide
    refine ⟨isList_default, fun _ => hbounds, fun p s _ => ⟨_, _, rfl, fun hlt => ?_, fun hle => ?_, fun hcap => ?_⟩⟩
    · rw [hdec _ (by omega), if_neg (by omega)]
      exact ⟨rfl, rfl⟩
    · refine if_pos ?_
      split <;> omega
    · split <;> omega
  | prioRr =>
    have hbounds : ∀ P, 0 < State.calcTimeSlice MAX_TIME_SLICE P ∧ State.calcTimeSlice MAX_TIME_SLICE P ≤ (40 : ℕ) :=
      fun P => ⟨lt_of_lt_of_le (by decide) (calcTimeSlice_bounds P).1, (calcTimeSlice_bounds P).2⟩
    refine ⟨isList_prioRr, hbounds, fun p s hmax => ⟨_, _, rfl, fun hlt => ?_, fun hle => ?_, fun hcap => ?_⟩⟩
    · rw [hdec _ (by omega), if_neg (by omega), if_neg (by omega)]
      exact ⟨rfl, rfl⟩
    · refine if_pos ?_
      split <;> omega
    · have hslice := (hbounds (s.proc p)).2
      rw [hmax]
      split <;> split <;> omega

/-- The ticks in user mode until `current` has to give way; `idleproc` gives way at once. -/
def State.left (s : State) : ℕ :=
  if s.current = s.idleproc then 0
  else if (s.proc s.current).needResched = true then 1
  else max 1 (s.proc s.current).timeSlice.toNat

/-- The time slice of a process as a number of ticks. -/
def State.slices (s : State) (q : ℕ) : ℕ := (s.proc q).timeSlice.toNat

/-- The ticks in user mode until `p` runs. -/
def State.wait (s : State) (p : ℕ) : ℕ := s.left + ahead s.slices p s.runList

theorem left_pos (hne : s.current ≠ s.idleproc) : 1 ≤ s.left := by
  rw [State.left, if_neg hne]
  split
  · exact le_rfl
  · exact le_max_left _ _

/-- A tick takes one from `left`, or `current` has to give way. -/
theorem Preempts.left_tick (hc : Preempts c slice cap) (hmax : s.maxTimeSlice = MAX_TIME_SLICE)
    (hne : s.current ≠ s.idleproc) (hm : m = s.schedClassProcTick c s.current) :
    m.left ≤ s.left ∧ ((m.proc m.current).needResched = false → m.left + 1 = s.left) := by
  obtain ⟨timeSlice, needResched, htick, hlong, hshort, -⟩ := hc.procTick s.current s hmax
  have heq : m = s.setProc s.current { s.proc s.current with timeSlice := timeSlice, needResched := needResched } := by
    rw [hm, State.schedClassProcTick, if_pos hne, htick]
  have hcur : m.current = s.current := by rw [heq]; rfl
  have hidle : m.idleproc = s.idleproc := by rw [heq]; rfl
  have hproc : m.proc s.current = { s.proc s.current with timeSlice := timeSlice, needResched := needResched } := by
    rw [heq]
    exact s.setProc_self _ _
  rw [State.left, State.left, hcur, hidle, if_neg hne, if_neg hne, hproc]
  dsimp only
  by_cases hlt : 1 < (s.proc s.current).timeSlice
  · obtain ⟨rfl, rfl⟩ := hlong hlt
    by_cases hresched : (s.proc s.current).needResched = true
    · rw [if_pos hresched, if_pos hresched]
      exact ⟨le_rfl, fun hfalse => absurd (hresched.symm.trans hfalse) (by decide)⟩
    · rw [if_neg hresched, if_neg hresched]
      omega
  · obtain rfl := hshort (by omega)
    rw [if_pos rfl]
    refine ⟨?_, fun hfalse => absurd hfalse (by decide)⟩
    split
    · exact le_rfl
    · exact le_max_left _ _

theorem Preempts.left_quiet (hc : Preempts c slice cap) (h : Inv slice s) (hq : Quiet c slice op s m) :
    m.left ≤ s.left := by
  by_cases hne : s.current = s.idleproc
  · rw [State.left, State.left, hq.current, hq.idleproc, if_pos hne]
    exact Nat.zero_le _
  rcases hq.runner with ⟨htick, -⟩ | ⟨hslice, -, -, hresched⟩
  · exact (hc.left_tick h.maxTimeSlice hne htick).1
  · rw [State.left, State.left, hq.current, hq.idleproc, if_neg hne, if_neg hne, hslice]
    rcases hresched with hsame | ⟨-, htrue⟩
    · rw [hsame]
    · rw [if_pos htrue]
      split
      · exact le_rfl
      · exact le_max_left _ _

theorem Quiet.mem (hq : Quiet c slice op s m) (hp : p ∈ s.runList) : p ∈ m.runList := by
  obtain ⟨as, heq⟩ := hq.runList
  rw [heq]
  exact List.mem_append_left as hp

theorem Quiet.ahead (hq : Quiet c slice op s m) (hp : p ∈ s.runList) :
    ahead m.slices p m.runList = ahead s.slices p s.runList := by
  obtain ⟨as, heq⟩ := hq.runList
  rw [heq, ahead_append hp]
  exact ahead_congr fun q hmem => by rw [State.slices, State.slices, hq.queued q hmem]

/-- While `p` waits, `schedule` takes the first of the list. -/
theorem Scheduled.first (hs : Scheduled slice s s') (hp : p ∈ s.runList) (hne : s'.current ≠ p) :
    ∃ as bs, s.runList = s'.current :: as ∧ s'.runList = as ++ bs ∧ p ∈ as := by
  obtain ⟨a, as, hlist⟩ : ∃ a as, s.runList = a :: as := List.exists_cons_of_ne_nil (List.ne_nil_of_mem hp)
  obtain ⟨bs, hqueue⟩ : ∃ bs, s.queue = a :: (as ++ bs) := by
    rw [State.queue, hlist]
    split
    · exact ⟨[s.current], rfl⟩
    · exact ⟨[], by rw [List.append_nil]⟩
  have hcur : s'.current = a := by
    rw [hs.current, hqueue]
    rfl
  refine ⟨as, bs, by rw [hlist, hcur], by rw [hs.runList, hqueue]; rfl, ?_⟩
  rw [hlist] at hp
  exact (List.mem_cons.mp hp).resolve_left fun heq => hne (hcur.trans heq.symm)

/-- `schedule` takes the turn of the process that comes to run out of what `p` waits for. -/
theorem Scheduled.wait (hc : Preempts c slice cap) (h : Inv slice s) (hs : Scheduled slice s s')
    (hp : p ∈ s.runList) (hne : s'.current ≠ p) : p ∈ s'.runList ∧ s'.wait p + s.left ≤ s.wait p := by
  obtain ⟨as, bs, hlist, hrest, hpas⟩ := hs.first hp hne
  have hslices : ∀ q ∈ s.runList, s'.slices q = s.slices q := by
    intro q hq
    rw [State.slices, hs.proc, State.scheduledProc, State.slices]
    dsimp only
    rw [if_neg fun hand : q = s.current ∧ q ∈ s.queue => h.current.1 (hand.1 ▸ hq)]
  have ha : s'.current ∈ s.runList := hlist ▸ List.mem_cons_self
  have hpos : 0 < s.slices s'.current := by
    have hslice := (hc.slice (s.proc s'.current)).1
    rw [State.slices, (h.queued _ ha).2.2, h.maxTimeSlice]
    omega
  have hleft : s'.left ≤ s.slices s'.current := by
    have hslice : (s'.proc s'.current).timeSlice.toNat = s.slices s'.current := hslices _ ha
    rw [State.left, hslice]
    split
    · exact Nat.zero_le _
    · split
      · exact hpos
      · exact max_le hpos le_rfl
  refine ⟨hrest ▸ List.mem_append_left bs hpas, ?_⟩
  have hahead : ahead s'.slices p s'.runList = ahead s.slices p as := by
    rw [hrest, ahead_append hpas]
    exact ahead_congr fun q hq => hslices q (hlist ▸ List.mem_cons_of_mem _ hq)
  rw [State.wait, State.wait, hahead, hlist, ahead_cons hne]
  omega

/-- **A step** and what `p` waits for. -/
theorem Preempts.wait_step (hc : Preempts c slice cap) (h : Inv slice s) (hnext : Next c s op s')
    (hp : p ∈ s.runList) (hne : s'.current ≠ p) :
    p ∈ s'.runList ∧ s'.wait p + (if op = .timer then 1 else 0) ≤ s.wait p := by
  have hop := hnext.1
  obtain ⟨m, hm, hq, hcases⟩ := h.next_cases hc.isList hnext
  have hleft := hc.left_quiet h hq
  have hwait : m.wait p = m.left + ahead s.slices p s.runList := congrArg (m.left + ·) (hq.ahead hp)
  have hswait : s.wait p = s.left + ahead s.slices p s.runList := rfl
  rcases hcases with ⟨rfl, -, hfalse⟩ | ⟨hs, -⟩
  · refine ⟨hq.mem hp, ?_⟩
    by_cases htimer : op = .timer
    · subst htimer
      have htick : m = s.schedClassProcTick c s.current :=
        hq.runner.elim And.left fun hother => absurd rfl hother.2.2.1
      have hone := (hc.left_tick h.maxTimeSlice hop htick).2 (hfalse rfl)
      rw [if_pos rfl]
      omega
    · rw [if_neg htimer]
      omega
  · obtain ⟨hmem, hle⟩ := hs.wait hc hm (hq.mem hp) hne
    refine ⟨hmem, ?_⟩
    by_cases htimer : op = .timer
    · subst htimer
      have hone : 1 ≤ m.left := left_pos (by rw [hq.current, hq.idleproc]; exact hop)
      rw [if_pos rfl]
      omega
    · rw [if_neg htimer]
      omega

/-! ### Runs -/

/-- A step after which `p` still does not run. -/
def Waits (c : SchedClass) (p : ℕ) (s : State) (op : Op) (s' : State) : Prop := Next c s op s' ∧ s'.current ≠ p

variable {s₀ : State} {ops : List Op}

/-- No time slice is longer than `cap`. -/
theorem Preempts.capped_step (hc : Preempts c slice cap) (h : Inv slice s) (hcap : ∀ q, (s.proc q).timeSlice ≤ cap)
    (hnext : Next c s op s') (q : ℕ) : (s'.proc q).timeSlice ≤ cap := by
  obtain ⟨m, hm, hq, hcases⟩ := h.next_cases hc.isList hnext
  have hquiet : ∀ q, (m.proc q).timeSlice ≤ cap := by
    intro q
    by_cases hcur : q = s.current
    · subst hcur
      rcases hq.runner with ⟨htick, -⟩ | ⟨hslice, -⟩
      · by_cases hne : s.current ≠ s.idleproc
        · obtain ⟨timeSlice, needResched, heq, -, -, hle⟩ := hc.procTick s.current s h.maxTimeSlice
          rw [htick, State.schedClassProcTick, if_pos hne, heq, State.setProc_self]
          exact hle (hcap _)
        · rw [htick, State.schedClassProcTick, if_neg hne, State.setProc_self]
          exact hcap _
      · rw [hslice]
        exact hcap _
    · rcases hq.other q hcur with hslice | ⟨P, hslice⟩
      · rw [hslice]
        exact hcap q
      · rw [hslice]
        exact (hc.slice P).2
  rcases hcases with ⟨rfl, -⟩ | ⟨hs, -⟩
  · exact hquiet q
  · rw [hs.proc, State.scheduledProc]
    dsimp only
    split
    · rw [hm.maxTimeSlice]
      exact (hc.slice _).2
    · exact hquiet q

theorem Preempts.capped (hc : Preempts c slice cap) (h : Reachable c s) (q : ℕ) : (s.proc q).timeSlice ≤ cap := by
  obtain ⟨s₀, idle, hrun⟩ := h
  suffices hboth : Inv slice s ∧ ∀ q, (s.proc q).timeSlice ≤ cap from hboth.2 q
  refine invariant (P := fun s => Inv slice s ∧ ∀ q, (s.proc q).timeSlice ≤ cap) (fun a b ha hab => ?_) hrun
    ⟨inv_procInit hc.isList s₀ idle, fun q => ?_⟩
  · obtain ⟨op, hnext⟩ := hab
    exact ⟨ha.1.next hc.isList hnext, hc.capped_step ha.1 ha.2 hnext⟩
  · have hzero : (((s₀.schedInit c).procInit idle).proc q).timeSlice = 0 := by
      rw [State.procInit]
      dsimp only
      split <;> rfl
    rw [hzero]
    exact Int.natCast_nonneg cap

theorem Preempts.wait_run (hc : Preempts c slice cap) (h : Inv slice s₀) (hp : p ∈ s₀.runList)
    (hrun : Trace (Waits c p) s₀ ops s) :
    Inv slice s ∧ p ∈ s.runList ∧ s.wait p + ops.count .timer ≤ s₀.wait p := by
  induction hrun with
  | nil => exact ⟨h, hp, le_rfl⟩
  | @snoc s s' ops op hrun hstep ih =>
    obtain ⟨hinv, hmem, hle⟩ := ih
    obtain ⟨hmem', hle'⟩ := hc.wait_step hinv hstep.1 hmem hstep.2
    refine ⟨hinv.next hc.isList hstep.1, hmem', ?_⟩
    rw [List.count_append, List.count_singleton]
    simp only [beq_iff_eq] at hle' ⊢
    omega

/-- **A process in the list runs before `wait` ticks in user mode are over**, whatever the others do, and `wait`
is at most one longest time slice for each process before it and for `current`. -/
theorem wait_bounded (hc : Preemptive c slice cap) (hreach : Reachable c s₀) (hp : p ∈ s₀.runList)
    (hrun : Trace (Waits c p) s₀ ops s) :
    p ∈ s.runList ∧ s.wait p + ops.count .timer ≤ s₀.wait p ∧
      (s.current ≠ s.idleproc → ops.count .timer < s₀.wait p) ∧ s₀.wait p ≤ (s₀.runList.idxOf p + 1) * cap := by
  have hpre := hc.preempts
  obtain ⟨-, hmem, hle⟩ := hpre.wait_run (hreach.inv hpre.isList) hp hrun
  refine ⟨hmem, hle, fun hne => ?_, ?_⟩
  · have hleft := left_pos hne
    have hwait : s.wait p = s.left + ahead s.slices p s.runList := rfl
    omega
  · have hslices : ∀ q, s₀.slices q ≤ cap := fun q => Int.toNat_le.mpr (hpre.capped hreach q)
    have hcap : 1 ≤ cap := by
      have hslice := hpre.slice (s₀.proc p)
      omega
    have hleft : s₀.left ≤ cap := by
      rw [State.left]
      split
      · exact Nat.zero_le _
      · split
        · exact hcap
        · exact max_le hcap (hslices s₀.current)
    have hahead := ahead_le (p := p) fun q (_ : q ∈ s₀.runList) => hslices q
    rw [State.wait, Nat.succ_mul, Nat.add_comm]
    exact Nat.add_le_add hahead hleft

/-- Process 2 waits for 1, which has run for three ticks in user mode and one in the kernel. -/
theorem wait_bounded_two : ∃ s₀ s, Reachable defaultSchedClass s₀ ∧ 2 ∈ s₀.runList ∧
    Trace (Waits defaultSchedClass 2) s₀ [.timer, .timer, .tick, .timer] s ∧ s.wait 2 + 3 ≤ s₀.wait 2 ∧
    s₀.wait 2 ≤ 5 := by
  have hcheck : ((boot defaultSchedClass).play defaultSchedClass (fun _ => true)
      [.fork 1, .schedule, .fork 2]).any (fun s₀ => decide (s₀.runList = [2]) &&
        (s₀.play defaultSchedClass (fun s => s.current ≠ 2) [.timer, .timer, .tick, .timer]).isSome) = true := by
    decide +kernel
  obtain ⟨s₀, hplay, hs₀⟩ := (Option.any_eq_true _ _).mp hcheck
  obtain ⟨hlist, hsome⟩ := Bool.and_eq_true_iff.mp hs₀
  have hlist := of_decide_eq_true hlist
  obtain ⟨s, hs⟩ := Option.isSome_iff_exists.mp hsome
  have hmem : 2 ∈ s₀.runList := hlist ▸ List.mem_cons_self
  have hrun : Trace (Waits defaultSchedClass 2) s₀ [.timer, .timer, .tick, .timer] s := by
    have htrace := trace_play _ hs
    simp only [decide_eq_true_iff] at htrace
    exact htrace
  obtain ⟨-, hle, -, hcap⟩ := wait_bounded .rr (reachable_play hplay) hmem hrun
  rw [hlist] at hcap
  exact ⟨s₀, s, reachable_play hplay, hmem, hrun, hle, hcap⟩

/-! ### The order of the list -/

/-- The three classes. -/
inductive ListClass : SchedClass → (ℤ → Proc → ℤ) → Prop
  | default : ListClass defaultSchedClass State.rrSlice
  | prioRr : ListClass prioRrSchedClass State.calcTimeSlice
  | fifo : ListClass fifoSchedClass State.rrSlice

theorem ListClass.isList (h : ListClass c slice) : IsList c slice := by
  cases h with
  | default => exact isList_default
  | prioRr => exact isList_prioRr
  | fifo => exact isList_fifo

/-- How `p` moves forward while others run. -/
structure Forward (p scheduled : ℕ) (s₀ s : State) : Prop where
  mem : p ∈ s.runList
  suffix : before p s.runList <:+ before p s₀.runList
  runner : s.current = s₀.current ∨ s.current ∈ before p s₀.runList
  idxOf : scheduled + s.runList.idxOf p ≤ s₀.runList.idxOf p

theorem Forward.step (hc : IsList c slice) (h : Inv slice s) {n : ℕ} (hf : Forward p n s₀ s)
    (hnext : Next c s op s') (hne : s'.current ≠ p) :
    Forward p (n + if op = .schedule then 1 else 0) s₀ s' := by
  obtain ⟨m, hm, hq, hcases⟩ := h.next_cases hc hnext
  have hmem := hq.mem hf.mem
  obtain ⟨as, happend⟩ := hq.runList
  have hbefore : before p m.runList = before p s.runList := by
    rw [happend, before_append hf.mem]
  have hidx : m.runList.idxOf p = s.runList.idxOf p := by
    rw [happend, List.idxOf_append_of_mem hf.mem]
  have hle := hf.idxOf
  rcases hcases with ⟨rfl, hop, -⟩ | ⟨hs, -⟩
  · refine ⟨hmem, hbefore ▸ hf.suffix, hq.current ▸ hf.runner, ?_⟩
    rw [if_neg hop, hidx]
    exact hle
  · obtain ⟨bs, cs, hlist, hrest, hpbs⟩ := hs.first hmem hne
    have hcons : before p m.runList = s'.current :: before p s'.runList := by
      rw [hlist, before_cons hne, hrest, before_append hpbs]
    rw [hbefore] at hcons
    refine ⟨hrest ▸ List.mem_append_left cs hpbs, (hcons ▸ List.suffix_cons _ _).trans hf.suffix, .inr ?_, ?_⟩
    · exact hf.suffix.subset (hcons ▸ List.mem_cons_self)
    · have hsucc : m.runList.idxOf p = s'.runList.idxOf p + 1 := by
        rw [hlist, List.idxOf_cons_ne _ hne, hrest, List.idxOf_append_of_mem hpbs]
      split <;> omega

theorem Forward.run (hc : IsList c slice) (h : Inv slice s₀) (hp : p ∈ s₀.runList)
    (hrun : Trace (Waits c p) s₀ ops s) : Inv slice s ∧ Forward p (ops.count .schedule) s₀ s := by
  induction hrun with
  | nil => exact ⟨h, hp, List.suffix_rfl, .inl rfl, (Nat.zero_add _).le⟩
  | @snoc s s' ops op hrun hstep ih =>
    obtain ⟨hinv, hf⟩ := ih
    refine ⟨hinv.next hc hstep.1, ?_⟩
    have hstep' := hf.step hc hinv hstep.1 hstep.2
    rw [List.count_append, List.count_singleton]
    simpa only [beq_iff_eq] using hstep'

/-- In `fifo_sched.c` a process that neither yields nor calls `schedule` keeps running. -/
theorem fifo_step (h : Inv State.rrSlice s) (hnext : Next fifoSchedClass s op s') (hyield : op ≠ .yield)
    (hschedule : op ≠ .schedule) (hne : s.current ≠ s.idleproc) (hresched : (s.proc s.current).needResched = false) :
    s'.current = s.current ∧ s'.idleproc = s.idleproc ∧ (s'.proc s'.current).needResched = false := by
  obtain ⟨m, -, hq, hcases⟩ := h.next_cases isList_fifo hnext
  have hfalse : (m.proc m.current).needResched = false := by
    rw [hq.current]
    rcases hq.runner with ⟨htick, -⟩ | ⟨-, -, -, hsame | ⟨hop, -⟩⟩
    · rw [htick, State.schedClassProcTick, if_pos hne]
      exact (congrArg Proc.needResched (s.setProc_self _ _)).trans hresched
    · exact hsame.trans hresched
    · exact absurd hop hyield
  rcases hcases with ⟨rfl, -⟩ | ⟨-, hop | htrue⟩
  · exact ⟨hq.current, hq.idleproc, hfalse⟩
  · exact absurd hop hschedule
  · exact absurd (htrue.symm.trans hfalse) (by decide)

theorem fifo_run (h : Inv State.rrSlice s₀) (hrun : Trace (Next fifoSchedClass) s₀ ops s) (hyield : .yield ∉ ops)
    (hschedule : .schedule ∉ ops) (hne : s₀.current ≠ s₀.idleproc)
    (hresched : (s₀.proc s₀.current).needResched = false) :
    Inv State.rrSlice s ∧ s.current = s₀.current ∧ s.idleproc = s₀.idleproc ∧
      (s.proc s.current).needResched = false := by
  induction hrun with
  | nil => exact ⟨h, rfl, rfl, hresched⟩
  | @snoc s s' ops op hrun hnext ih =>
    rw [List.mem_append, not_or, List.mem_singleton] at hyield hschedule
    obtain ⟨hinv, hcur, hidle, hfalse⟩ := ih hyield.1 hschedule.1
    obtain ⟨hcur', hidle', hfalse'⟩ := fifo_step hinv hnext (Ne.symm hyield.2) (Ne.symm hschedule.2)
      (by rw [hcur, hidle]; exact hne) hfalse
    exact ⟨hinv.next isList_fifo hnext, hcur'.trans hcur, hidle'.trans hidle, hfalse'⟩

/-- **First come, first served.**  While `p` waits, only processes that were before it come to run, in their
order, and each call of `schedule` brings `p` forward.  In `fifo_sched.c` moreover the process that runs keeps
running until it yields or calls `schedule`. -/
theorem first_come_first_served (hc : ListClass c slice) (hreach : Reachable c s₀) :
    (∀ p ∈ s₀.runList, ∀ ops s, Trace (Waits c p) s₀ ops s → Forward p (ops.count .schedule) s₀ s) ∧
      (c = fifoSchedClass → ∀ ops s, Trace (Next c) s₀ ops s → .yield ∉ ops → .schedule ∉ ops →
        s₀.current ≠ s₀.idleproc → (s₀.proc s₀.current).needResched = false → s.current = s₀.current) := by
  refine ⟨fun p hp ops s hrun => (Forward.run hc.isList (hreach.inv hc.isList) hp hrun).2, ?_⟩
  rintro rfl ops s hrun hyield hschedule hne hresched
  exact (fifo_run (hreach.inv isList_fifo) hrun hyield hschedule hne hresched).2.1

/-- Processes 2 and 3 wait for 1, which goes to sleep. -/
theorem first_come_first_served_three : ∃ s₀ s, Reachable fifoSchedClass s₀ ∧ s₀.runList = [2, 3] ∧
    Trace (Waits fifoSchedClass 3) s₀ [.timer, .sleep, .schedule, .wakeup 1] s ∧
    Forward 3 1 s₀ s ∧ s.current = 2 := by
  have hcheck : ((boot fifoSchedClass).play fifoSchedClass (fun _ => true)
      [.fork 1, .schedule, .fork 2, .fork 3]).any (fun s₀ => decide (s₀.runList = [2, 3]) &&
        (s₀.play fifoSchedClass (fun s => s.current ≠ 3) [.timer, .sleep, .schedule, .wakeup 1]).any
          fun s => s.current = 2) = true := by
    decide +kernel
  obtain ⟨s₀, hplay, hs₀⟩ := (Option.any_eq_true _ _).mp hcheck
  obtain ⟨hlist, hany⟩ := Bool.and_eq_true_iff.mp hs₀
  have hlist := of_decide_eq_true hlist
  obtain ⟨s, hs, hcur⟩ := (Option.any_eq_true _ _).mp hany
  have hrun : Trace (Waits fifoSchedClass 3) s₀ [.timer, .sleep, .schedule, .wakeup 1] s := by
    have htrace := trace_play _ hs
    simp only [decide_eq_true_iff] at htrace
    exact htrace
  exact ⟨s₀, s, reachable_play hplay, hlist, hrun,
    (first_come_first_served .fifo (reachable_play hplay)).1 3 (by rw [hlist]; decide) _ s hrun,
    of_decide_eq_true hcur⟩

end Ucore.RoundRobin
