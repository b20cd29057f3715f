import Ucore.Proc.Exit

/-!
# `do_wait`

A zombie is found by its pid or along the list of children, and leaves all lists.  A process that
finds none waits only if it has a child to wait for.
-/

namespace Ucore.Proc

open Function Fallible Forest State

variable {s s' : State} {p c : ℕ} {pid : ℤ}

/-- **The loop over the children** finds the first zombie. -/
theorem findZombie_eq {n : ℕ} {prev h : Option ℕ} {l : List ℕ}
    (hl : Visits s.family.older s.family.younger prev h l) (hn : l.length ≤ n) (haskid : Bool) :
    s.findZombie n h haskid =
      .ok (haskid || !l.isEmpty, l.find? fun c => s.state c = .PROC_ZOMBIE) := by
  induction l generalizing n prev h haskid with
  | nil =>
    obtain rfl : h = none := hl
    cases n with
    | zero =>
      rw [findZombie, List.isEmpty_nil, Bool.not_true, Bool.or_false]
      rfl
    | succ n =>
      rw [findZombie, List.isEmpty_nil, Bool.not_true, Bool.or_false]
      rfl
  | cons c l ih =>
    obtain ⟨rfl, -, hl⟩ := hl
    cases n with
    | zero => exact absurd hn (Nat.not_succ_le_zero _)
    | succ n =>
      rw [findZombie]
      by_cases hz : s.state c = .PROC_ZOMBIE
      · rw [if_pos hz, List.find?_cons_of_pos (by simpa using hz), List.isEmpty_cons, Bool.not_false,
          Bool.or_true]
      · rw [if_neg hz, List.find?_cons_of_neg (by simpa using hz), ih hl (Nat.le_of_succ_le_succ hn),
          List.isEmpty_cons, Bool.not_false, Bool.or_true, Bool.true_or]

/-- What one round of `do_wait` finds. -/
structure Looks (pid : ℤ) (s : State) (haskid : Bool) (found : Option ℕ) : Prop where
  zombie : ∀ c, found = some c → c ∈ s.procList ∧ s.family.parent c = some s.current ∧
    s.state c = .PROC_ZOMBIE ∧ Accepts pid (s.pid c)
  none : found = none → ∀ c ∈ s.procList, s.family.parent c = some s.current →
    s.state c = .PROC_ZOMBIE → ¬ Accepts pid (s.pid c)
  alone : found = Option.none → haskid = false → pid = 0 → ∀ c ∈ s.procList,
    s.family.parent c ≠ some s.current

/-- **One round of `do_wait`** -/
theorem waitLook_ok (h : Ok s) (pid : ℤ) : ∃ haskid found, s.waitLook pid = .ok (haskid, found) ∧
    Looks pid s haskid found := by
  rw [waitLook]
  by_cases hpid : pid = 0
  · rw [if_neg (not_not.mpr hpid)]
    obtain ⟨l, hl⟩ := h.family.forest.children s.current h.sched.known
    have hlen : l.length ≤ s.procList.length :=
      (hl.nodup.subperm fun c hc => ((hl.mem c).mp hc).1).length_le
    refine ⟨_, _, findZombie_eq hl.visits hlen false, ?_, ?_, ?_⟩
    · intro c hfind
      obtain ⟨hc, hpar⟩ := (hl.mem c).mp (List.mem_of_find?_eq_some hfind)
      exact ⟨hc, hpar, of_decide_eq_true (List.find?_some
        (p := fun c => decide (s.state c = .PROC_ZOMBIE)) hfind), Or.inl hpid⟩
    · intro hfind c hc hpar hz
      have hnot := List.find?_eq_none.mp hfind c ((hl.mem c).mpr ⟨hc, hpar⟩)
      exact absurd (decide_eq_true hz) hnot
    · intro _ hkid _ c hc hpar
      have hmem := (hl.mem c).mpr ⟨hc, hpar⟩
      rw [Bool.false_or, Bool.not_eq_false', List.isEmpty_iff] at hkid
      rw [hkid] at hmem
      exact absurd hmem List.not_mem_nil
  · rw [if_pos hpid]
    have hacc : ∀ c, Accepts pid (s.pid c) ↔ s.pid c = pid := fun c => or_iff_right hpid
    cases hfind : s.findProc pid with
    | none =>
      have hno : ∀ c ∈ s.procList, ¬ Accepts pid (s.pid c) := by
        intro c hc hac
        have hsome := (findProc_eq_some h.pids).mpr ⟨hc, (hacc c).mp hac⟩
        exact nomatch hfind.symm.trans hsome
      exact ⟨false, none, rfl, (fun c hc => nomatch hc), fun _ c hc _ _ => hno c hc,
        fun _ _ hzero => absurd hzero hpid⟩
    | some c =>
      obtain ⟨hc, hcpid⟩ := (findProc_eq_some h.pids).mp hfind
      have honly : ∀ b ∈ s.procList, Accepts pid (s.pid b) → b = c := fun b hb hac =>
        h.pids.inj b hb c hc (((hacc b).mp hac).trans hcpid.symm)
      dsimp only
      by_cases hpar : s.family.parent c = some s.current
      · rw [if_pos hpar]
        by_cases hz : s.state c = .PROC_ZOMBIE
        · rw [if_pos hz]
          refine ⟨true, some c, rfl, ?_, (fun h => nomatch h), fun h => nomatch h⟩
          rintro b hb
          cases hb
          exact ⟨hc, hpar, hz, (hacc c).mpr hcpid⟩
        · rw [if_neg hz]
          refine ⟨true, none, rfl, (fun b hb => nomatch hb), ?_, fun _ _ hzero => absurd hzero hpid⟩
          intro _ b hb _ hbz hac
          exact hz (honly b hb hac ▸ hbz)
      · rw [if_neg hpar]
        refine ⟨false, none, rfl, (fun b hb => nomatch hb), ?_, fun _ _ hzero => absurd hzero hpid⟩
        intro _ b hb hbpar _ hac
        exact hpar (honly b hb hac ▸ hbpar)

/-! ### A zombie is freed -/

theorem PidsOk.unhash {pid : ℕ → ℤ} {procs : List ℕ} {hash : ℕ → List ℕ} {lastPid nextSafe : ℤ}
    (h : PidsOk pid procs hash lastPid nextSafe) (hnodup : procs.Nodup) (c : ℕ) :
    PidsOk pid (procs.erase c) (update hash (pidHashfn (pid c)) ((hash (pidHashfn (pid c))).erase c))
      lastPid nextSafe := by
  have hsub : ∀ p ∈ procs.erase c, p ∈ procs := fun p hp => List.mem_of_mem_erase hp
  refine ⟨fun p hp => h.range p (hsub p hp), fun p hp q hq => h.inj p (hsub p hp) q (hsub q hq), ?_, ?_,
    h.next.mono (List.map_subset _ (List.erase_subset))⟩
  · intro i
    by_cases hi : i = pidHashfn (pid c)
    · rw [hi, update_self]
      exact (h.hashNodup _).erase c
    · rw [update_of_ne hi]
      exact h.hashNodup i
  · intro i p
    rw [hnodup.mem_erase_iff]
    by_cases hi : i = pidHashfn (pid c)
    · rw [hi, update_self, (h.hashNodup _).mem_erase_iff, h.hash, and_assoc]
    · rw [update_of_ne hi, h.hash]
      constructor
      · rintro ⟨hp, hhash⟩
        refine ⟨⟨?_, hp⟩, hhash⟩
        rintro rfl
        exact hi hhash.symm
      · rintro ⟨⟨-, hp⟩, hhash⟩
        exact ⟨hp, hhash⟩

/-- What the end of `do_wait` changes. -/
structure Frees (c : ℕ) (s s' : State) : Prop where
  frame : s' = { s with
    hashList := s'.hashList
    procList := s.procList.erase c
    family := s'.family
    nrProcess := s.nrProcess - 1
    allocated := s.allocated.erase c }
  parent : s'.family.parent = s.family.parent

/-- **A zombie is freed.** -/
theorem reap_ok (h : Ok s) (hc : c ∈ s.procList) (hz : s.state c = .PROC_ZOMBIE)
    (hcur : s.current ≠ c) : ∃ s', s.reap c = .ok s' ∧ Ok s' ∧ Frees c s s' := by
  have hidle : c ≠ s.idleproc := ne_of_mem_of_not_mem hc h.sched.idle_notMem
  have hinit : s.initproc ≠ c := fun heq => h.init (heq ▸ hz)
  have hnodup := h.family.nodup
  have hmem : ∀ p, p ∈ s.procList.erase c ↔ p ≠ c ∧ p ∈ s.procList := fun p => hnodup.mem_erase_iff
  have hleaf := h.zombie_leaf hz
  obtain ⟨l, hl⟩ := h.family.forest.children c (Or.inr hc)
  have hforest := h.family.forest.detach hc (hl.first_eq_none.mpr hleaf)
  have hset : { p | p ∈ s.procList } \ {c} = { p | p ∈ s.procList.erase c } := by
    ext p
    exact (and_comm.trans (hmem p).symm)
  rw [hset] at hforest
  have hpar := detach_parent s.family c
  rw [reap, require_pos ⟨hidle, hinit.symm⟩, bind_ok]
  refine ⟨_, rfl, ⟨⟨hforest, hnodup.erase c, ?_, ?_, ?_⟩, h.pids.unhash hnodup c,
    ⟨h.sched.nodup, h.sched.linked, ?_, ?_, h.sched.idleRunnable, ?_⟩, ⟨?_, ?_, h.waits.idlePlace, ?_⟩,
    ⟨h.timers.nodup, ?_, h.timers.head, ?_⟩, h.running, h.init, ?_, h.allocNodup.erase c, ?_⟩, rfl, hpar⟩
  · show Elders (s.family.detach c).parent _ _
    rw [hpar]
    exact h.family.elders.erase hinit.symm hleaf
  · show (s.family.detach c).parent _ = _
    rw [hpar]
    exact h.family.initParent
  · intro b hb p hp
    have hp' : (s.family.detach c).parent b = some p := hp
    rw [hpar] at hp'
    exact h.family.live b ((hmem b).mp hb).2 p hp'
  · intro p
    show p ∈ s.runList ↔ p ∈ s.procList.erase c ∧ _
    rw [h.sched.mem, hmem]
    constructor
    · rintro ⟨hp, hr, hne⟩
      refine ⟨⟨?_, hp⟩, hr, hne⟩
      rintro rfl
      exact nomatch hz.symm.trans hr
    · rintro ⟨⟨-, hp⟩, hr, hne⟩
      exact ⟨hp, hr, hne⟩
  · exact h.sched.known.imp_right fun hmem' => (hmem _).mpr ⟨hcur, hmem'⟩
  · exact fun hmem' => h.sched.idle_notMem ((hmem _).mp hmem').2
  · intro p hp
    exact h.waits.sleeping p (hp.imp_right fun hp => ((hmem p).mp hp).2)
  · intro p hp hchild
    obtain ⟨n, hn, hnone⟩ := h.waits.child p ((hmem p).mp hp).2 hchild
    refine ⟨n, hn, ?_⟩
    intro b hb hbp
    have hbp' : (s.family.detach c).parent b = some p := hbp
    rw [hpar] at hbp'
    exact hnone b ((hmem b).mp hb).2 hbp'
  · exact fun p hp => h.waits.born p ((hmem p).mp hp).2
  · intro p hp
    obtain ⟨hp', hin, hnz⟩ := h.timers.mem p hp
    refine ⟨(hmem p).mpr ⟨?_, hp'⟩, hin, hnz⟩
    rintro rfl
    exact hnz hz
  · exact fun p hp => h.timers.wait p ((hmem p).mp hp).2
  · show s.nrProcess - 1 = (s.procList.erase c).length + 1
    rw [List.length_erase_of_mem hc, h.count]
    have hpos := List.length_pos_of_mem hc
    omega
  · intro p
    show p ∈ s.allocated.erase c ↔ p = s.idleproc ∨ p ∈ s.procList.erase c
    rw [h.allocNodup.mem_erase_iff, h.alloc, hmem]
    constructor
    · rintro ⟨hne, hp⟩
      exact hp.imp_right fun hp => ⟨hne, hp⟩
    · rintro (rfl | ⟨hne, hp⟩)
      · exact ⟨hidle.symm, Or.inl rfl⟩
      · exact ⟨hne, Or.inr hp⟩

/-! ### `do_wait` -/

/-- What `do_wait` has done when it returns or calls `schedule`. -/
inductive Waited (pid : ℤ) (s : State) : State → Option ℤ → Prop
  | freed {s' : State} (c : ℕ) (hc : c ∈ s.procList)
      (hpar : s.family.parent c = some s.current) (hz : s.state c = .PROC_ZOMBIE)
      (hacc : Accepts pid (s.pid c))
      (hf : Frees c { s with place := update s.place s.current .run } s') : Waited pid s s' (some 0)
  | asleep (place : ℕ → Place) (hplace : ∀ p, p ≠ s.current → place p = s.place p)
      (hin : place s.current = .inWait pid) :
      Waited pid s ({ s with place := place }.block .WT_CHILD) none
  | noChild (halone : pid = 0 → ∀ c ∈ s.procList, s.family.parent c ≠ some s.current) :
      Waited pid s { s with place := update s.place s.current .run } (some (-E_BAD_PROC))

/-- **`do_wait`** -/
theorem waitRepeat_ok (h : Ok s) (hidle : s.current ≠ s.idleproc)
    (hr : s.state s.current = .PROC_RUNNABLE) (hplace : s.place s.current ≠ .inSleep) (pid : ℤ) :
    ∃ s' ret, s.waitRepeat pid = .ok (s', ret) ∧ Ok s' ∧ Waited pid s s' ret := by
  have hcur := h.sched.known.resolve_left hidle
  have hnot : s.current ∉ s.timerList.map Prod.fst := fun hmem => hplace (h.timers.mem _ hmem).2.1
  have h₁ := h.goOn hr h.timers.nodup (fun _ hp => hp) h.timers.head hnot
  obtain ⟨haskid, found, hlook, hl⟩ := waitLook_ok h pid
  rw [waitRepeat, hlook, bind_ok]
  dsimp only
  cases found with
  | some c =>
    obtain ⟨hc, hpar, hz, hacc⟩ := hl.zombie c rfl
    have hne : s.current ≠ c := by
      rintro rfl
      exact nomatch hz.symm.trans hr
    obtain ⟨s', hrun, h', hf⟩ := reap_ok h₁ hc hz hne
    refine ⟨s', some 0, ?_, h', .freed c hc hpar hz hacc hf⟩
    dsimp only
    rw [hrun, bind_ok]
  | none =>
    dsimp only
    cases haskid with
    | false => exact ⟨_, _, rfl, h₁, .noChild (hl.alone rfl rfl)⟩
    | true =>
      have hsame : ∀ p, p ≠ s.current → update (update s.place s.current .run) s.current (.inWait pid) p =
          s.place p := fun p hp => (update_of_ne hp _ _).trans (update_of_ne hp _ _)
      have hin : update (update s.place s.current .run) s.current (.inWait pid) s.current =
          .inWait pid := update_self _ _ _
      refine ⟨_, _, rfl, ?_, .asleep _ hsame hin⟩
      refine h.block hidle hsame h.timers.nodup ?_ h.timers.head (fun hsleep => ?_) fun _ =>
        ⟨pid, hin, hl.none rfl⟩
      · intro p hp
        obtain ⟨hmem, hplace', hz⟩ := h.timers.mem p hp
        exact ⟨hmem, (hsame p (ne_of_mem_of_not_mem hp hnot)).trans hplace', hz⟩
      · exact nomatch hin.symm.trans hsleep

end Ucore.Proc
