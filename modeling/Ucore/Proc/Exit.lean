import Ucore.Proc.Calls

/-!
# `do_exit`

The children of the process that exits come under `initproc`.  The parent, if it waits, and
`initproc`, if it waits and gets a zombie, wake up, so that no process sleeps while it has a zombie to
free.
-/

namespace Ucore.Proc

open Function Fallible Forest State

variable {s s' : State} {p c : ℕ}

/-- The tree may change meanwhile. -/
theorem Wakes.withFamily {f : Links ℕ} (h : Wakes { s with family := f } s') :
    Wakes s { s' with family := s.family } :=
  ⟨congrArg (fun x : State => { x with family := s.family }) h.frame, h.each⟩

/-- A process that may wait for a child is woken up, on a condition. -/
theorem wakeIf_ok (cond : Prop) [Decidable cond]
    (hs : SchedOk s.runList s.rq s.procList s.state s.current s.idleproc)
    (hp : p = s.idleproc ∨ p ∈ s.procList) (hz : s.state p ≠ .PROC_ZOMBIE)
    (hu : s.state p ≠ .PROC_UNINIT)
    (hsleep : s.waitState p ≠ .none → s.state p = .PROC_SLEEPING) :
    ∃ s', (if cond then s.wakeupProc p else .ok s) = .ok s' ∧ Wakes s s' ∧
      SchedOk s'.runList s'.rq s.procList s'.state s.current s.idleproc ∧
      (s'.waitState p = .WT_CHILD → s.waitState p = .WT_CHILD ∧ ¬ cond) := by
  by_cases hcond : cond
  · obtain ⟨s', hrun, hw, hs', hr⟩ := wakeupProc_ok hs hp hz hu
    refine ⟨s', (if_pos hcond).trans hrun, hw, hs', ?_⟩
    intro hchild
    obtain ⟨hwait, hstate⟩ := hw.waiting (ne_none_of_child hchild)
    have hasleep := hsleep (ne_none_of_child (hwait.symm.trans hchild))
    exact nomatch (hr.symm.trans hstate).trans hasleep
  · exact ⟨s, if_neg hcond, Wakes.refl s, hs, fun hchild => ⟨hchild, hcond⟩⟩

/-- **The children of `current` come under `initproc`**, which wakes up for a zombie. -/
theorem reparent_ok {n : ℕ} {l : List ℕ}
    (hs : SchedOk s.runList s.rq s.procList s.state s.current s.idleproc)
    (ha : Adopting s.family s.idleproc { p | p ∈ s.procList } s.current l) (hn : l.length ≤ n)
    (hmem : s.initproc ∈ s.procList) (hne : s.initproc ≠ s.current) (hnot : s.initproc ∉ l)
    (hz : s.state s.initproc ≠ .PROC_ZOMBIE) (hu : s.state s.initproc ≠ .PROC_UNINIT)
    (hsleep : s.waitState s.initproc ≠ .none → s.state s.initproc = .PROC_SLEEPING) :
    ∃ s₁ f, reparent n s = .ok { s₁ with family := f } ∧ Wakes s s₁ ∧
      SchedOk s₁.runList s₁.rq s.procList s₁.state s.current s.idleproc ∧
      IsForest f s.idleproc { p | p ∈ s.procList } ∧
      (∀ c ∈ l, f.parent c = some s.initproc) ∧ (∀ c ∉ l, f.parent c = s.family.parent c) ∧
      (s₁.waitState s.initproc = .WT_CHILD → ∀ c ∈ l, s.state c ≠ .PROC_ZOMBIE) := by
  induction l generalizing s n with
  | nil =>
    have hfirst : s.family.first s.current = none := ha.first
    refine ⟨s, s.family, ?_, Wakes.refl s, hs, ha.isForest,
      fun c hc => absurd hc List.not_mem_nil, fun c _ => rfl, fun _ c hc => absurd hc List.not_mem_nil⟩
    cases n with
    | zero => exact if_pos hfirst
    | succ n => rw [reparent, hfirst]
  | cons c l ih =>
    have hfirst : s.family.first s.current = some c := ha.first
    cases n with
    | zero => exact absurd hn (Nat.not_succ_le_zero _)
    | succ n =>
      let s₀ : State := { s with family := s.family.adopt c s.current s.initproc }
      have hic : s.initproc ≠ c := fun heq => hnot (heq ▸ List.mem_cons_self)
      have ha₀ := ha.adopt hne hic (Or.inr hmem)
      -- `initproc` wakes up for `c`
      obtain ⟨s₁, hrun, hw, hs₁, hwake⟩ := wakeIf_ok (s := s₀) (s₀.state c = .PROC_ZOMBIE ∧
        s₀.waitState s₀.initproc = .WT_CHILD) hs (Or.inr hmem) hz hu hsleep
      have hawake : s₁.waitState s.initproc = .WT_CHILD → s.state c ≠ .PROC_ZOMBIE :=
        fun hchild hzombie => (hwake hchild).2 ⟨hzombie, (hwake hchild).1⟩
      have hsleep₁ : s₁.waitState s.initproc ≠ .none → s₁.state s.initproc = .PROC_SLEEPING := by
        intro hnone
        obtain ⟨hwait, hstate⟩ := hw.waiting hnone
        exact hstate.trans (hsleep fun h => hnone (hwait.trans h))
      have hz₁ : s₁.state s.initproc ≠ .PROC_ZOMBIE := fun h => hz (hw.zombie.mp h)
      have hu₁ : s₁.state s.initproc ≠ .PROC_UNINIT := by
        rcases hw.each s.initproc with ⟨hstate, -⟩ | ⟨-, hstate, -⟩
        · rw [hstate]
          exact hu
        · rw [hstate]
          decide
      have hstep : reparent (n + 1) s = reparent n s₁ := by
        rw [reparent, hfirst]
        exact congrArg (fun x => x >>= reparent n) hrun
      obtain ⟨state, waitState, run, rq, ts, k, rfl⟩ := hw.explicit
      obtain ⟨s₂, f, hrun₂, hw₂, hs₂, hf, hmoved, hstays, hawake₂⟩ := ih hs₁ ha₀ (Nat.le_of_succ_le_succ hn)
        hmem hne (fun h => hnot (List.mem_cons_of_mem _ h)) hz₁ hu₁ hsleep₁
      refine ⟨{ s₂ with family := s.family }, f, hstep.trans hrun₂, (hw.trans hw₂).withFamily, hs₂, hf,
        ?_, ?_, ?_⟩
      · intro b hb
        by_cases hbl : b ∈ l
        · exact hmoved b hbl
        · obtain rfl := (List.mem_cons.mp hb).resolve_right hbl
          exact (hstays b hbl).trans (update_self _ _ _)
      · intro b hb
        obtain ⟨hbc, hbl⟩ := not_or.mp fun h => hb (List.mem_cons.mpr h)
        exact (hstays b hbl).trans (update_of_ne hbc _ _)
      · intro hchild b hb
        have hwait := (hw₂.waiting (ne_none_of_child hchild)).1
        rcases List.mem_cons.mp hb with rfl | hb
        · exact hawake (hwait.symm.trans hchild)
        · exact fun hzombie => hawake₂ hchild b hb (hw.zombie.mpr hzombie)

/-- What `do_exit` changes. -/
structure Exits (s s' : State) : Prop where
  frame : s' = { s with
    state := s'.state
    waitState := s'.waitState
    runList := s'.runList
    rq := s'.rq
    timeSlice := s'.timeSlice
    procNum := s'.procNum
    family := s'.family
    exitCode := s'.exitCode
    mm := s'.mm
    mmCount := s'.mmCount
    tables := s'.tables
    atSchedule := true }
  zombie : ∀ p, s'.state p = .PROC_ZOMBIE ↔ p = s.current ∨ s.state p = .PROC_ZOMBIE
  noFiles : s.mm s.current = none ∨ s.filesp s.current = none → s'.tables = s.tables
  putFiles : ∀ t, s.mm s.current ≠ none → s.filesp s.current = some t →
    s.tables.putFiles t = .ok s'.tables

/-- The first part of `do_exit`. -/
theorem releaseAll_ok (s : State) : ∃ mm mmCount tables,
    (if (s.mm s.current).isSome then (s.putMm s.current).putFiles s.current else .ok s) =
      .ok { s with mm := mm, mmCount := mmCount, tables := tables } ∧
    (s.mm s.current = none ∨ s.filesp s.current = none → tables = s.tables) ∧
    ∀ t, s.mm s.current ≠ none → s.filesp s.current = some t → s.tables.putFiles t = .ok tables := by
  cases hmm : s.mm s.current with
  | none => exact ⟨s.mm, s.mmCount, s.tables, rfl, fun _ => rfl, fun _ hne => absurd rfl hne⟩
  | some m =>
    have hput : s.putMm s.current = { s with
        mm := update s.mm s.current none
        mmCount := update s.mmCount m (s.mmCount m - 1) } := by
      rw [State.putMm, hmm]
    rw [if_pos Option.isSome_some, hput, State.putFiles]
    dsimp only
    cases hfiles : s.filesp s.current with
    | none =>
      exact ⟨_, _, s.tables, rfl, fun _ => rfl, fun _ _ h => nomatch h⟩
    | some t =>
      obtain ⟨tables, htables⟩ := Tables.putFiles_total s.tables t
      refine ⟨update s.mm s.current none, update s.mmCount m (s.mmCount m - 1), tables, ?_,
        fun h => ?_, ?_⟩
      · dsimp only
        rw [htables, bind_ok]
      · exact h.elim (fun h => nomatch h) fun h => nomatch h
      · rintro t' - ht
        cases ht
        exact htables

/-- **`do_exit`** keeps the invariant. -/
theorem doExit_ok (h : Ok s) (hidle : s.current ≠ s.idleproc) (hinit : s.current ≠ s.initproc)
    (hr : s.state s.current = .PROC_RUNNABLE) (hplace : s.place s.current ≠ .inSleep) (code : ℤ) :
    ∃ s', s.doExit code = .ok s' ∧ Ok s' ∧ Exits s s' := by
  have hcur := h.sched.known.resolve_left hidle
  obtain ⟨q, hq, hqmem, hqz⟩ := h.parent hcur
  have hqne : q ≠ s.current := by
    rintro rfl
    exact h.family.elders.parent_ne h.family.nodup hcur hinit hq
  have hborn : ∀ p, p = s.idleproc ∨ p ∈ s.procList → s.state p ≠ .PROC_UNINIT := by
    rintro p (rfl | hp)
    · rw [h.sched.idleRunnable]
      decide
    · exact h.waits.born p hp
  obtain ⟨mm, mmCount, tables, hrelease, hnofiles, hput⟩ := releaseAll_ok s
  let s₂ : State := { s with
    mm := mm, mmCount := mmCount, tables := tables
    state := update s.state s.current .PROC_ZOMBIE
    exitCode := update s.exitCode s.current code }
  have hstate₂ : ∀ p, p ≠ s.current → s₂.state p = s.state p := fun p hp => update_of_ne hp _ _
  have hself₂ : s₂.state s.current = .PROC_ZOMBIE := update_self _ _ _
  have hzombie₂ : ∀ p, s₂.state p = .PROC_ZOMBIE ↔ p = s.current ∨ s.state p = .PROC_ZOMBIE := by
    intro p
    by_cases hp : p = s.current
    · rw [hp]
      exact iff_of_true hself₂ (Or.inl rfl)
    · rw [hstate₂ p hp, or_iff_right hp]
  -- the parent wakes up
  obtain ⟨s₃, hrun₃, hw₃, hs₃, hawake₃⟩ := wakeIf_ok (s := s₂) (s₂.waitState q = .WT_CHILD)
    (h.sched.leave hidle _) hqmem (by rw [hstate₂ q hqne]; exact hqz)
    (by rw [hstate₂ q hqne]; exact hborn q hqmem)
    (by rw [hstate₂ q hqne]; exact h.waits.sleeping q hqmem)
  have hzombie₃ : ∀ p, s₃.state p = .PROC_ZOMBIE ↔ p = s.current ∨ s.state p = .PROC_ZOMBIE :=
    fun p => hw₃.zombie.trans (hzombie₂ p)
  -- the children come under `initproc`
  obtain ⟨l, hl⟩ := h.family.forest.children s.current (Or.inr hcur)
  have hlen : l.length ≤ s.procList.length :=
    (hl.nodup.subperm fun c hc => ((hl.mem c).mp hc).1).length_le
  have hil : s.initproc ∉ l := by
    intro hmem
    have hpar := ((hl.mem _).mp hmem).2
    rw [h.family.initParent] at hpar
    exact hidle (Option.some.inj hpar).symm
  have hiz : s.state s.initproc ≠ .PROC_ZOMBIE := h.init
  have hini : s₃.state s.initproc ≠ .PROC_ZOMBIE := by
    rw [ne_eq, hzombie₃]
    exact not_or.mpr ⟨hinit.symm, hiz⟩
  have hiu : s₃.state s.initproc ≠ .PROC_UNINIT := by
    rcases hw₃.each s.initproc with ⟨hstate, -⟩ | ⟨-, hstate, -⟩
    · rw [hstate, hstate₂ _ hinit.symm]
      exact h.waits.born _ h.init_mem
    · rw [hstate]
      decide
  have hsleep₃ : s₃.waitState s.initproc ≠ .none → s₃.state s.initproc = .PROC_SLEEPING := by
    intro hne
    obtain ⟨hwait, hstate⟩ := hw₃.waiting hne
    rw [hstate, hstate₂ _ hinit.symm]
    exact h.waits.sleeping _ (Or.inr h.init_mem) fun hnone => hne (hwait.trans hnone)
  obtain ⟨state₃, wait₃, run₃, rq₃, ts₃, k₃, rfl⟩ := hw₃.explicit
  obtain ⟨s₄, f, hrun₄, hw₄, hs₄, hf, hmoved, hstays, hawake₄⟩ := reparent_ok hs₃
    (h.family.forest.adopting hl) hlen h.init_mem hinit.symm hil hini hiu hsleep₃
  have hw : Wakes s₂ s₄ := hw₃.trans hw₄
  obtain ⟨state₄, wait₄, run₄, rq₄, ts₄, k₄, rfl⟩ := hw.explicit
  have hzombie : ∀ p, state₄ p = .PROC_ZOMBIE ↔ p = s.current ∨ s.state p = .PROC_ZOMBIE :=
    fun p => hw.zombie.trans (hzombie₂ p)
  have hrun : s.doExit code = .ok { s₂ with
      state := state₄, waitState := wait₄, runList := run₄, rq := rq₄, timeSlice := ts₄
      procNum := k₄
      family := f, atSchedule := true } := by
    rw [doExit, require_pos hidle, bind_ok, require_pos hinit, bind_ok, hrelease, bind_ok]
    simp only [hq]
    show ((if s₂.waitState q = .WT_CHILD then s₂.wakeupProc q else .ok s₂) >>= _) = _
    rw [hrun₃, bind_ok]
    show (reparent s.procList.length _ >>= _) = _
    rw [hrun₄, bind_ok]
  have hwaiting : ∀ p, wait₄ p ≠ .none → p ≠ s.current → wait₄ p = s.waitState p ∧
      state₄ p = s.state p := by
    intro p hne hp
    obtain ⟨hwait, hstate⟩ := hw.waiting (q := p) hne
    exact ⟨hwait, hstate.trans (hstate₂ p hp)⟩
  have hcurrent : wait₄ s.current = .none := by
    by_contra hne
    have hwait : wait₄ s.current = s.waitState s.current := (hw.waiting (q := s.current) hne).1
    have hsleep := h.waits.sleeping _ (Or.inr hcur) fun hnone => hne (hwait.trans hnone)
    cases hr.symm.trans hsleep
  have hparent : ∀ c ∈ s.procList, f.parent c = s.family.parent c ∨
      f.parent c = some s.initproc := by
    intro c _
    by_cases hcl : c ∈ l
    · exact Or.inr (hmoved c hcl)
    · exact Or.inl (hstays c hcl)
  refine ⟨_, hrun, ⟨⟨hf, h.family.nodup, h.family.elders.congr hparent, ?_, ?_⟩, h.pids, hs₄,
    ⟨?_, ?_, h.waits.idlePlace, ?_⟩, ⟨h.timers.nodup, ?_, h.timers.head, ?_⟩, (fun hat => by cases hat), ?_,
    h.count, h.allocNodup, h.alloc⟩, rfl, hzombie, hnofiles, hput⟩
  · exact (hstays _ hil).trans h.family.initParent
  · -- no parent is a zombie
    intro c hc p hp hz
    rcases (hzombie p).mp hz with rfl | hz
    · by_cases hcl : c ∈ l
      · exact hinit (Option.some.inj ((hmoved c hcl).symm.trans hp)).symm
      · exact hcl ((hl.mem c).mpr ⟨hc, (hstays c hcl).symm.trans hp⟩)
    · by_cases hcl : c ∈ l
      · rw [hmoved c hcl] at hp
        exact hiz (Option.some.inj hp ▸ hz)
      · exact h.family.live c hc p ((hstays c hcl).symm.trans hp) hz
  · intro p hp hne
    have hpc : p ≠ s.current := fun heq => hne (heq ▸ hcurrent)
    obtain ⟨hwait, hstate⟩ := hwaiting p hne hpc
    exact hstate.trans (h.waits.sleeping p hp fun hnone => hne (hwait.trans hnone))
  · -- nobody sleeps with a zombie to free
    intro p hp hchild
    have hchild' : wait₄ p = .WT_CHILD := hchild
    have hpc : p ≠ s.current := fun heq => ne_none_of_child hchild' (heq ▸ hcurrent)
    obtain ⟨hwait, -⟩ := hwaiting p (ne_none_of_child hchild') hpc
    obtain ⟨n, hn, hnone⟩ := h.waits.child p hp (hwait.symm.trans hchild')
    refine ⟨n, hn, ?_⟩
    intro c hc hpar hz
    have hzc := (hzombie c).mp hz
    by_cases hcl : c ∈ l
    · rw [hmoved c hcl] at hpar
      cases hpar
      exact absurd (hw₄.zombie.mp hz) (hawake₄ hchild' c hcl)
    · have hpar' : s.family.parent c = some p := (hstays c hcl).symm.trans hpar
      rcases hzc with rfl | hzc
      · rw [hq] at hpar'
        cases hpar'
        have hwait₃ : wait₃ q = .WT_CHILD :=
          ((hw₄.waiting (q := q) (ne_none_of_child hchild')).1).symm.trans hchild'
        exact absurd (hawake₃ hwait₃).1 (hawake₃ hwait₃).2
      · exact hnone c hc hpar' hzc
  · intro p hp hu
    rcases hw.each p with ⟨hstate, -⟩ | ⟨-, hstate, -⟩
    · have hu' : s₂.state p = .PROC_UNINIT := hstate.symm.trans hu
      by_cases hpc : p = s.current
      · rw [hpc, hself₂] at hu'
        cases hu'
      · rw [hstate₂ p hpc] at hu'
        exact h.waits.born p hp hu'
    · cases hu.symm.trans hstate
  · intro p hp
    obtain ⟨hmem, hin, hz⟩ := h.timers.mem p hp
    refine ⟨hmem, hin, fun hz' => ?_⟩
    rcases (hzombie p).mp hz' with rfl | hz'
    · exact hplace hin
    · exact hz hz'
  · intro p hp hin
    rcases hw.each p with ⟨-, hwait⟩ | ⟨-, -, hwait⟩
    · have hsame : wait₄ p = s.waitState p := hwait
      show wait₄ p = _ ∨ wait₄ p = _
      rw [hsame]
      exact h.timers.wait p hp hin
    · exact Or.inl hwait
  · intro hz
    exact ((hzombie _).mp hz).elim hinit.symm hiz

end Ucore.Proc
