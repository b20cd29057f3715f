import Ucore.Proc.InitRuns

/-!
# Runs of processes and their tables of files

`users` counts the processes that use a table and are not zombies.

* **`tables_accounted`**: as long as every process that exits has an address space, each table counts
  its users and goes, with the references that it holds, when it has none.  `put_files` stands in the
  branch of `do_exit` for processes with an address space: `failed_exec_leaks_table`.
-/

namespace Ucore.Proc

open Function Relation Fallible State

variable {s s' s₀ : State} {op : Op} {ret : Option ℤ} {p c t : ℕ} {b : ℕ → ℤ × ℤ}

/-- The process uses the table, and is no zombie. -/
def State.Uses (s : State) (t p : ℕ) : Prop := s.state p ≠ .PROC_ZOMBIE ∧ s.filesp p = some t

instance (s : State) (t : ℕ) : DecidablePred (s.Uses t) :=
  fun p => inferInstanceAs (Decidable (s.state p ≠ .PROC_ZOMBIE ∧ s.filesp p = some t))

/-- How many processes use the table. -/
def State.users (s : State) (t : ℕ) : ℕ := (s.idleproc :: s.procList).countP fun p => s.Uses t p

/-- The tables are those in use, with the right counts, and hold their references. -/
structure FilesOk (b : ℕ → ℤ × ℤ) (s : State) : Prop where
  nodup : s.tables.allocated.Nodup
  allocated : ∀ t, t ∈ s.tables.allocated ↔ 0 < s.users t
  count : ∀ t ∈ s.tables.allocated, (s.tables.files t).filesCount = s.users t
  has : ∀ p, s.Known p → s.state p ≠ .PROC_ZOMBIE → ∃ t, s.filesp p = some t
  balance : ∀ n, s.tables.balance n = b n

/-! ### The number of users -/

theorem known_iff : s.Known p ↔ p ∈ s.idleproc :: s.procList := List.mem_cons.symm

theorem users_congr (hidle : s'.idleproc = s.idleproc) (hprocs : s'.procList = s.procList)
    (hsame : ∀ p, s.Known p → (s'.Uses t p ↔ s.Uses t p)) : s'.users t = s.users t := by
  rw [State.users, State.users, hidle, hprocs]
  apply List.countP_congr
  intro p hp
  simpa using hsame p (known_iff.mpr hp)

/-- One element of a list has the property no more. -/
theorem countP_except {l : List ℕ} (hnodup : l.Nodup) (hc : c ∈ l) {P Q : ℕ → Prop} [DecidablePred P]
    [DecidablePred Q] (hsame : ∀ p ∈ l, p ≠ c → (P p ↔ Q p)) (hno : ¬ Q c) :
    l.countP (fun p => P p) = l.countP (fun p => Q p) + if P c then 1 else 0 := by
  have hperm := List.perm_cons_erase hc
  have hrest : (l.erase c).countP (fun p => P p) = (l.erase c).countP fun p => Q p := by
    apply List.countP_congr
    intro p hp
    obtain ⟨hne, hmem⟩ := hnodup.mem_erase_iff.mp hp
    simpa using hsame p hmem hne
  rw [hperm.countP_eq fun p => decide (P p), hperm.countP_eq fun p => decide (Q p), List.countP_cons,
    List.countP_cons, hrest]
  simp [hno]

theorem Ok.nodup_known (h : Ok s) : (s.idleproc :: s.procList).Nodup :=
  List.nodup_cons.mpr ⟨h.sched.idle_notMem, h.family.nodup⟩

theorem FilesOk.users_pos (h : FilesOk b s) (hp : s.Known p) (hz : s.state p ≠ .PROC_ZOMBIE)
    (ht : s.filesp p = some t) : t ∈ s.tables.allocated := by
  rw [h.allocated, State.users, List.countP_pos_iff]
  exact ⟨p, known_iff.mp hp, by simpa using ⟨hz, ht⟩⟩

/-- Where no table changes. -/
theorem FilesOk.quiet (h : FilesOk b s) (hq : Quiet s s') (hidle : s'.idleproc = s.idleproc) :
    FilesOk b s' := by
  have husers : ∀ t, s'.users t = s.users t := by
    intro t
    refine users_congr hidle hq.procList fun p hp => ?_
    rw [State.Uses, State.Uses, ne_eq, hq.zombie p hp, hq.filesp p hp]
  refine ⟨?_, ?_, ?_, ?_, ?_⟩
  · rw [hq.tables]
    exact h.nodup
  · intro t
    rw [hq.tables, husers]
    exact h.allocated t
  · intro t
    rw [hq.tables, husers]
    exact h.count t
  · intro p hp hz
    have hp' : s.Known p := by
      rw [State.Known, hidle, hq.procList] at hp
      exact hp
    rw [hq.filesp p hp']
    exact h.has p hp' fun hz' => hz ((hq.zombie p hp').mpr hz')
  · intro n
    rw [hq.tables]
    exact h.balance n

/-! ### The table of `current` changes -/

/-- The set of tables, their counts and the balance stay. -/
structure KeepsCounts (fs fs' : Tables) : Prop where
  allocated : fs'.allocated = fs.allocated
  filesCount : ∀ t, (fs'.files t).filesCount = (fs.files t).filesCount
  balance : ∀ n, fs'.balance n = fs.balance n

theorem KeepsCounts.refl (fs : Tables) : KeepsCounts fs fs := ⟨rfl, fun _ => rfl, fun _ => rfl⟩

theorem Tables.Touches.keepsCounts {fs fs' : Tables} (h : Tables.Touches t fs fs')
    (hcount : (fs'.files t).filesCount = (fs.files t).filesCount) : KeepsCounts fs fs' := by
  refine ⟨h.allocated, ?_, h.balance⟩
  intro t'
  by_cases ht : t' = t
  · rw [ht, hcount]
  · rw [h.others t' ht]

theorem Tables.Moves.keepsCounts {fs fs' : Tables} (h : Tables.Moves t fs fs') :
    KeepsCounts fs fs' := h.touches.keepsCounts h.filesCount

theorem FilesOk.keepsCounts (h : FilesOk b s) {tables : Tables} (hk : KeepsCounts s.tables tables)
    (mm : ℕ → Option ℕ) (mmCount : ℕ → ℤ) :
    FilesOk b { s with mm := mm, mmCount := mmCount, tables := tables } := by
  refine ⟨?_, ?_, ?_, h.has, fun n => (hk.balance n).trans (h.balance n)⟩
  · show tables.allocated.Nodup
    rw [hk.allocated]
    exact h.nodup
  · intro t
    show t ∈ tables.allocated ↔ _
    rw [hk.allocated]
    exact h.allocated t
  · intro t ht
    have ht' : t ∈ tables.allocated := ht
    rw [hk.allocated] at ht'
    exact (hk.filesCount t).trans (h.count t ht')

/-- The descriptor that `do_execve` opens is closed when it does. -/
theorem execve_moves (h : FilesOk b s) (ht : t ∈ s.tables.allocated)
    (hfiles : s.filesp s.current = some t) {tables : Tables}
    (hclose : s.tables.filesCloseall t = .ok tables) {fd : ℕ}
    (hfd : fd < FILES_STRUCT_NENTRY ∧ (2 ≤ fd ∨ s.FdFree fd)) (node : ℕ) :
    Tables.Moves t s.tables ((tables.fdArrayOpen t fd node).fdArrayClose t fd) := by
  obtain ⟨hmoves, hnone⟩ := Tables.filesCloseall_ok h.nodup ht hclose
  have hnodup : tables.allocated.Nodup := hmoves.allocated.symm ▸ h.nodup
  have hmem : t ∈ tables.allocated := hmoves.allocated.symm ▸ ht
  have hopen := Tables.fdArrayOpen_moves (m := node) hnodup hmem hfd.1
    (hnone fd hfd.1 (hfd.2.imp_right fun hfree => hfree.2 t hfiles))
  exact (hmoves.trans hopen).trans (Tables.fdArrayClose_moves (hopen.allocated.symm ▸ hnodup)
    (hopen.allocated.symm ▸ hmem) hfd.1)

/-- The table of the process that runs. -/
theorem FilesOk.current (h : FilesOk b s) (hok : Ok s) (hr : s.Running)
    (ht : s.filesp s.current = some t) : t ∈ s.tables.allocated := by
  refine h.users_pos (Or.inr (hr.mem hok)) ?_ ht
  rw [hok.running hr.atSchedule]
  decide

theorem TableStep.keepsCounts (h : FilesOk b s) (hok : Ok s) (hen : s.Enabled op) {tables : Tables}
    (hs : TableStep s op tables) : KeepsCounts s.tables tables := by
  cases hs with
  | @openFile fd node t ht =>
    obtain ⟨hr, hfd⟩ : s.Running ∧ s.FdFree fd := hen
    exact (Tables.fdArrayOpen_moves h.nodup (h.current hok hr ht) hfd.1 (hfd.2 t ht)).keepsCounts
  | @closeFile fd t ht =>
    obtain ⟨hr, hfd⟩ : s.Running ∧ fd < FILES_STRUCT_NENTRY := hen
    exact (Tables.fdArrayClose_moves h.nodup (h.current hok hr ht) hfd).keepsCounts
  | @chdir node t ht =>
    have hr : s.Running := hen
    obtain ⟨htouches, hcount⟩ := Tables.setCurdir_ok (m := node) h.nodup (h.current hok hr ht)
    exact htouches.keepsCounts hcount
  | execve ht hclose hfile =>
    obtain ⟨hr, hfd⟩ : s.Running ∧ _ := hen
    exact (execve_moves h (h.current hok hr ht) ht hclose (hfd _ _ hfile) _).keepsCounts

theorem ExitStep.keepsCounts (h : FilesOk b s) (hok : Ok s) (hen : s.Enabled op)
    {mm : ℕ → Option ℕ} {tables : Tables} (hs : ExitStep s op mm tables) :
    KeepsCounts s.tables tables := by
  cases hs with
  | exit => exact KeepsCounts.refl _
  | killed => exact KeepsCounts.refl _
  | noFile _ ht hclose =>
    obtain ⟨hr, -⟩ : s.Running ∧ _ := hen
    exact (Tables.filesCloseall_ok h.nodup (h.current hok hr ht) hclose).1.keepsCounts
  | noLoad _ ht hclose hfile =>
    obtain ⟨hr, hfd⟩ : s.Running ∧ _ := hen
    exact (execve_moves h (h.current hok hr ht) ht hclose (hfd _ _ hfile) _).keepsCounts

/-! ### A process exits -/

/-- **A process with an address space exits** and gives up its table. -/
theorem FilesOk.exits (h : FilesOk b s) (hok : Ok s) (hidle : s.current ≠ s.idleproc)
    (hr : s.state s.current = .PROC_RUNNABLE) (hmm : s.mm s.current ≠ none) (hexit : Exits s s') :
    FilesOk b s' := by
  have hcur := hok.sched.known.resolve_left hidle
  have hz : s.state s.current ≠ .PROC_ZOMBIE := by
    rw [hr]
    decide
  obtain ⟨t, ht⟩ := h.has s.current (Or.inr hcur) hz
  have hmem : t ∈ s.tables.allocated := h.users_pos (Or.inr hcur) hz ht
  obtain ⟨fs, hput, hbalance, hothers, hlast⟩ := Tables.putFiles_ok h.nodup hmem
  cases (hexit.putFiles t hmm ht).symm.trans hput
  have hidle' : s'.idleproc = s.idleproc := by rw [hexit.frame]
  have hprocs : s'.procList = s.procList := by rw [hexit.frame]
  have hfilesp : s'.filesp = s.filesp := by rw [hexit.frame]
  have huses : ∀ u p, s'.Uses u p ↔ p ≠ s.current ∧ s.Uses u p := by
    intro u p
    rw [State.Uses, State.Uses, hfilesp, ne_eq, hexit.zombie, not_or, and_assoc]
  have husers : ∀ u, s.users u = s'.users u + if u = t then 1 else 0 := by
    intro u
    rw [State.users, State.users, hidle', hprocs, countP_except (P := s.Uses u) (Q := s'.Uses u)
      hok.nodup_known (List.mem_cons_of_mem _ hcur) (fun p _ hp => ?_) fun hu => ?_]
    · congr 1
      apply if_congr _ rfl rfl
      constructor
      · rintro ⟨-, hu⟩
        exact Option.some.inj (hu.symm.trans ht)
      · rintro rfl
        exact ⟨hz, ht⟩
    · rw [huses, and_iff_right hp]
    · exact ((huses u _).mp hu).1 rfl
  have hcount := h.count t hmem
  have husers_t := husers t
  rw [if_pos rfl] at husers_t
  have hallocated : ∀ u, u ∈ s'.tables.allocated ↔ u ∈ s.tables.allocated ∧ (u ≠ t ∨ 0 < s'.users t) := by
    intro u
    by_cases hone : (s.tables.files t).filesCount = 1
    · rw [if_pos hone] at hlast
      rw [hlast, h.nodup.mem_erase_iff, and_comm, or_iff_left (by omega)]
    · rw [if_neg hone] at hlast
      rw [hlast.1]
      exact (and_iff_left (Or.inr (by omega))).symm
  refine ⟨?_, ?_, ?_, ?_, fun n => (hbalance n).trans (h.balance n)⟩
  · split at hlast
    · rw [hlast]
      exact h.nodup.erase t
    · rw [hlast.1]
      exact h.nodup
  · intro u
    rw [hallocated, h.allocated, husers u]
    by_cases hu : u = t
    · subst hu
      rw [if_pos rfl]
      constructor
      · rintro ⟨-, hne | hpos⟩
        · exact absurd rfl hne
        · exact hpos
      · exact fun hpos => ⟨Nat.succ_pos _, Or.inr hpos⟩
    · rw [if_neg hu]
      exact and_iff_left (Or.inl hu)
  · intro u hu
    obtain ⟨hu', hkept⟩ := (hallocated u).mp hu
    by_cases hut : u = t
    · subst hut
      have hpos := hkept.resolve_left fun hne => hne rfl
      rw [if_neg (by omega)] at hlast
      rw [hlast.2]
      omega
    · have husers_u := husers u
      rw [if_neg hut] at husers_u
      rw [hothers u hut, h.count u hu', husers_u]
      rfl
  · intro p hp hz'
    rw [hfilesp]
    rw [State.Known, hidle', hprocs] at hp
    exact h.has p hp fun hz'' => hz' ((hexit.zombie p).mpr (Or.inr hz''))

/-! ### A process is forked -/

/-- One more process uses the table `t`, which may be new. -/
structure GainsUser (t : ℕ) (fs fs' : Tables) : Prop where
  nodup : fs'.allocated.Nodup
  allocated : ∀ u, u ∈ fs'.allocated ↔ u = t ∨ u ∈ fs.allocated
  others : ∀ u, u ≠ t → fs'.files u = fs.files u
  filesCount : (fs'.files t).filesCount =
    if t ∈ fs.allocated then (fs.files t).filesCount + 1 else 1
  balance : ∀ n, fs'.balance n = fs.balance n

/-- A copy of the table `t₀` with its first user. -/
theorem gainsUser_dup {fs fs' : Tables} {t₀ : ℕ} (hnodup : fs.allocated.Nodup) (ht : t ∉ fs.allocated)
    (hne : t₀ ≠ t) (hdup : (fs.filesCreate t).dupFiles t t₀ = .ok fs') :
    GainsUser t fs (fs'.filesCountInc t) := by
  have hcreate : (fs.filesCreate t).files t = ⟨none, 0, fun _ => none⟩ := update_self _ _ _
  have hnodup' : (fs.filesCreate t).allocated.Nodup := List.nodup_cons.mpr ⟨ht, hnodup⟩
  have hmem : t ∈ (fs.filesCreate t).allocated := List.mem_cons_self
  obtain ⟨_, hassert, -⟩ := bind_eq_ok.mp hdup
  obtain ⟨fs₁, hdup₁, htouches, hzero⟩ := Tables.dupFiles_ok hnodup' hmem hne hcreate
    (require_eq_ok.mp hassert).2
  cases hdup.symm.trans hdup₁
  have hinc := Tables.setCount_touches (t := t) (show fs'.allocated.Nodup from
    htouches.allocated.symm ▸ hnodup')
    (htouches.allocated.symm ▸ hmem) ((fs'.files t).filesCount + 1)
  have hall := htouches.trans hinc
  refine ⟨hall.allocated.symm ▸ hnodup', ?_, ?_, ?_, ?_⟩
  · intro u
    exact (iff_of_eq (congrArg (u ∈ ·) hall.allocated)).trans List.mem_cons
  · exact fun u hu => (hall.others u hu).trans (update_of_ne hu _ _)
  · rw [if_neg ht]
    show (update fs'.files t _ t).filesCount = _
    rw [update_self, hzero]
    rfl
  · exact fun n => (hall.balance n).trans (Tables.balance_filesCreate ht n)

theorem GetsTable.gainsUser {cloneFs : Bool} {answer : Option ℕ} {tables : Tables}
    (hnodup : s.tables.allocated.Nodup)
    (hcur : ∀ t, s.filesp s.current = some t → t ∈ s.tables.allocated)
    (hfresh : ∀ t, answer = some t → t ∉ s.tables.allocated)
    (hg : GetsTable cloneFs answer s t tables) : GainsUser t s.tables tables := by
  obtain ⟨t₀, ht₀, ⟨-, rfl, rfl⟩ | ⟨-, hanswer, fs, hdup, rfl⟩⟩ := hg
  · have hmem := hcur t ht₀
    have htouches := Tables.setCount_touches hnodup hmem ((s.tables.files t).filesCount + 1)
    refine ⟨hnodup, fun u => (or_iff_right_of_imp ?_).symm, htouches.others, ?_, htouches.balance⟩
    · rintro rfl
      exact hmem
    · rw [if_pos hmem]
      show (update s.tables.files t _ t).filesCount = _
      rw [update_self]
  · have hnot := hfresh t hanswer
    exact gainsUser_dup hnodup hnot (ne_of_mem_of_not_mem (hcur t₀ ht₀) hnot) hdup

/-- The new process is one more user of its table. -/
theorem FilesOk.forked {mm : ℕ → Option ℕ} {mmCount : ℕ → ℤ} {tables : Tables} (h : FilesOk b s)
    (hc : ¬ s.Known c) (hg : GainsUser t s.tables tables) (hs : Starts c { s.newProc c with
      mm := mm, mmCount := mmCount, filesp := update (s.newProc c).filesp c (some t)
      tables := tables } s') : FilesOk b s' := by
  have hidle : s'.idleproc = s.idleproc := by
    rw [hs.frame]
    rfl
  have hprocs : s'.procList = c :: s.procList := by
    rw [hs.frame]
    rfl
  have htables : s'.tables = tables := by rw [hs.frame]
  have hfilesp : s'.filesp = update (update s.filesp c none) c (some t) := by
    rw [hs.frame]
    rfl
  have hstate : s'.state = update (update s.state c .PROC_UNINIT) c .PROC_RUNNABLE := by
    rw [hs.frame]
    rfl
  have hnew : ∀ u, s'.Uses u c ↔ u = t := by
    intro u
    rw [State.Uses, hstate, hfilesp, update_self, update_self, Option.some_inj, eq_comm]
    exact and_iff_right (by decide)
  have hold : ∀ u p, s.Known p → (s'.Uses u p ↔ s.Uses u p) := by
    intro u p hp
    have hne : p ≠ c := fun heq => hc (heq ▸ hp)
    rw [State.Uses, State.Uses, hstate, hfilesp, update_of_ne hne, update_of_ne hne, update_of_ne hne,
      update_of_ne hne]
  have husers : ∀ u, s'.users u = s.users u + if u = t then 1 else 0 := by
    intro u
    have hperm : (s.idleproc :: c :: s.procList).Perm (c :: s.idleproc :: s.procList) :=
      List.Perm.swap _ _ _
    rw [State.users, State.users, hidle, hprocs, hperm.countP_eq fun p => decide (s'.Uses u p),
      List.countP_cons]
    congr 1
    · apply List.countP_congr
      intro p hp
      simpa using hold u p (known_iff.mpr hp)
    · simp [hnew u]
  have hcount : ∀ u ∈ s.tables.allocated, (s.tables.files u).filesCount = s.users u := h.count
  refine ⟨?_, ?_, ?_, ?_, ?_⟩
  · rw [htables]
    exact hg.nodup
  · intro u
    rw [htables, hg.allocated, husers, h.allocated]
    by_cases hu : u = t
    · rw [if_pos hu]
      exact iff_of_true (Or.inl hu) (Nat.succ_pos _)
    · rw [if_neg hu]
      exact or_iff_right hu
  · intro u hu
    rw [htables] at hu ⊢
    rw [husers]
    by_cases hut : u = t
    · subst hut
      rw [hg.filesCount, if_pos rfl]
      by_cases hmem : u ∈ s.tables.allocated
      · rw [if_pos hmem, h.count u hmem]
        rfl
      · have hzero : s.users u = 0 := Nat.eq_zero_of_not_pos fun hpos => hmem ((h.allocated u).mpr hpos)
        rw [if_neg hmem, hzero]
        rfl
    · rw [if_neg hut, hg.others u hut, h.count u (((hg.allocated u).mp hu).resolve_left hut)]
      rfl
  · intro p hp hz
    rw [State.Known, hidle, hprocs, List.mem_cons, or_left_comm] at hp
    rcases hp with rfl | hp
    · exact ⟨t, ((hnew t).mpr rfl).2⟩
    · have hne : p ≠ c := fun heq => hc (heq ▸ hp)
      rw [hstate, update_of_ne hne, update_of_ne hne] at hz
      rw [hfilesp, update_of_ne hne, update_of_ne hne]
      exact h.has p hp hz
  · intro n
    rw [htables, hg.balance]
    exact h.balance n

/-! ### A process is freed -/

theorem FilesOk.freed (h : FilesOk b s) (hnodup : s.procList.Nodup) (hc : c ∈ s.procList)
    (hz : s.state c = .PROC_ZOMBIE)
    (hf : Frees c { s with place := update s.place s.current .run } s') : FilesOk b s' := by
  have hidle : s'.idleproc = s.idleproc := by rw [hf.frame]
  have hprocs : s'.procList = s.procList.erase c := by rw [hf.frame]
  have htables : s'.tables = s.tables := by rw [hf.frame]
  have hfilesp : s'.filesp = s.filesp := by rw [hf.frame]
  have hstate : s'.state = s.state := by rw [hf.frame]
  have huses : ∀ u p, s'.Uses u p ↔ s.Uses u p := by
    intro u p
    rw [State.Uses, State.Uses, hstate, hfilesp]
  have husers : ∀ u, s'.users u = s.users u := by
    intro u
    have hperm : (s.idleproc :: s.procList).Perm (c :: s.idleproc :: s.procList.erase c) :=
      ((List.perm_cons_erase hc).cons _).trans (List.Perm.swap _ _ _)
    have hno : ¬ s.Uses u c := fun hu => hu.1 hz
    have hcons : (c :: s.idleproc :: s.procList.erase c).countP (fun p => s.Uses u p) =
        (s.idleproc :: s.procList.erase c).countP fun p => s.Uses u p :=
      List.countP_cons_of_neg (by simpa using hno)
    rw [State.users, State.users, hidle, hprocs, hperm.countP_eq fun p => decide (s.Uses u p), hcons]
    apply List.countP_congr
    intro p _
    simpa using huses u p
  refine ⟨?_, ?_, ?_, ?_, ?_⟩
  · rw [htables]
    exact h.nodup
  · intro u
    rw [htables, husers]
    exact h.allocated u
  · intro u
    rw [htables, husers]
    exact h.count u
  · intro p hp hz'
    rw [hstate] at hz'
    rw [hfilesp]
    rw [State.Known, hidle, hprocs] at hp
    exact h.has p (hp.imp_right fun hp => (hnodup.mem_erase_iff.mp hp).2) hz'
  · intro n
    rw [htables]
    exact h.balance n

/-! ### Runs -/

/-- Where the operation calls `do_exit`, the process still has its address space. -/
def State.ExitsWithMm (s : State) : Op → Prop
  | .exit _ => s.mm s.current ≠ none
  -- `do_sleep` goes on without a look at `PF_EXITING`
  | .resume => ∀ pid, s.place s.current = .inWait pid → s.exiting s.current = true →
      s.mm s.current ≠ none
  | .execve answers => answers.argcOk = true ∧ answers.nameOk = true ∧ answers.kargv = .ok () →
      match answers.file with
      | .error _ => s.mm s.current ≠ none
      | .ok _ => ∃ m, answers.load = .ok m
  | _ => True

/-- A step that `P` admits. -/
def State.NextIf (P : State → Op → Prop) (s s' : State) : Prop :=
  ∃ op ret, s.Enabled op ∧ P s op ∧ s.step op = .ok (s', ret)

theorem ExitStep.mm {mm : ℕ → Option ℕ} {tables : Tables} (hs : ExitStep s op mm tables)
    (hmm : s.ExitsWithMm op) : mm s.current ≠ none := by
  cases hs with
  | exit => exact hmm
  | killed hplace hexit => exact hmm _ hplace hexit
  | noFile hargs _ _ hfile =>
    have hmm := hmm hargs
    rw [hfile] at hmm
    exact hmm
  | noLoad hargs _ _ hfile hload =>
    have hmm := hmm hargs
    rw [hfile] at hmm
    obtain ⟨m, hm⟩ := hmm
    exact nomatch hload.symm.trans hm

/-- **One step** -/
theorem filesOk_step (hok : Ok s) (h : FilesOk b s) (hen : s.Enabled op) (hmm : s.ExitsWithMm op)
    (hrun : s.step op = .ok (s', ret)) : FilesOk b s' := by
  obtain ⟨hok', hs, hk⟩ := step_ok hok hen hrun
  cases hs with
  | quiet hq => exact h.quiet hq hk.idleproc
  | tables mm mmCount ht => exact h.keepsCounts (ht.keepsCounts h hok hen) mm mmCount
  | forked hop c hproc hc mm mmCount t tables ht hstart =>
    subst hop
    obtain ⟨hr, hfresh⟩ : s.Running ∧ _ := hen
    exact h.forked hc (ht.gainsUser h.nodup (fun t => h.current hok hr) hfresh.2) hstart
  | exited hexit hexits =>
    have hcur : s.current ≠ s.idleproc ∧ s.state s.current = .PROC_RUNNABLE := by
      cases hexit with
      | exit =>
        have hr : s.Running := hen
        exact ⟨hr.ne_idle, hok.running hr.atSchedule⟩
      | killed hplace =>
        obtain ⟨hne, hat⟩ : s.place s.current ≠ .run ∧ s.atSchedule = false := hen
        exact ⟨fun heq => hne (heq ▸ hok.waits.idlePlace), hok.running hat⟩
      | noFile =>
        obtain ⟨hr, -⟩ : s.Running ∧ _ := hen
        exact ⟨hr.ne_idle, hok.running hr.atSchedule⟩
      | noLoad =>
        obtain ⟨hr, -⟩ : s.Running ∧ _ := hen
        exact ⟨hr.ne_idle, hok.running hr.atSchedule⟩
    exact (h.keepsCounts (hexit.keepsCounts h hok hen) _ _).exits (hok.ofSame _ _ _ _ _ _ _ _ _)
      hcur.1 hcur.2 (hexit.mm hmm) hexits
  | freed _ c hc _ hz _ hf => exact h.freed hok.family.nodup hc hz hf

/-- At the start `idleproc` and `initproc` have a table each. -/
theorem State.Booted.filesOk (h : s.Booted) : FilesOk s.tables.balance s := by
  obtain ⟨idle, t, refCount, openCount, c, t', tables, l, n, hb⟩ := h.boots
  let b := bootState idle t refCount openCount
  have hbnodup : b.tables.allocated.Nodup := List.nodup_singleton t
  have hbcount : (b.tables.files t).filesCount = 1 := by
    simp [b, bootState, Tables.filesCreate, Tables.filesCountInc, Tables.setFiles]
  obtain ⟨fs, hdup, htables⟩ := hb.gets
  have hg : GainsUser t' b.tables tables := htables ▸ gainsUser_dup hbnodup
    (fun hmem => hb.ne_table (List.mem_singleton.mp hmem)) hb.ne_table.symm hdup
  have hc := hb.ne_idle
  have ht' : t' ∉ b.tables.allocated := fun hmem => hb.ne_table (List.mem_singleton.mp hmem)
  have hidle : s.idleproc = idle := by
    rw [hb.frame]
    rfl
  have hprocs : s.procList = [c] := by rw [hb.frame]
  have hstate : ∀ p, s.state p = .PROC_RUNNABLE := by
    intro p
    rw [hb.frame]
    rfl
  have hfilesp : s.filesp = update (fun _ => some t) c (some t') := by rw [hb.frame]
  have hs : s.tables = tables := by rw [hb.frame]
  have huses : ∀ u, (s.Uses u idle ↔ u = t) ∧ (s.Uses u c ↔ u = t') := by
    intro u
    rw [State.Uses, State.Uses, hstate, hstate, hfilesp, update_self, update_of_ne hc.symm,
      Option.some_inj, Option.some_inj, eq_comm, eq_comm (a := t')]
    exact ⟨and_iff_right (by decide), and_iff_right (by decide)⟩
  have husers : ∀ u, s.users u = (if u = t' then 1 else 0) + if u = t then 1 else 0 := by
    intro u
    rw [State.users, hidle, hprocs, List.countP_cons, List.countP_cons, List.countP_nil, zero_add]
    simp [huses u]
  rw [← hs] at hg
  refine ⟨hg.nodup, ?_, ?_, ?_, fun _ => rfl⟩
  · intro u
    have hu := hg.allocated u
    rw [show u ∈ b.tables.allocated ↔ u = t from List.mem_singleton] at hu
    rw [hu, husers]
    by_cases hut' : u = t'
    · exact iff_of_true (Or.inl hut') (by simp [hut'])
    · by_cases hut : u = t
      · exact iff_of_true (Or.inr hut) (by simp [hut])
      · exact iff_of_false (not_or.mpr ⟨hut', hut⟩) (by simp [hut', hut])
  · intro u hu
    rw [husers]
    by_cases hut' : u = t'
    · rw [hut', if_pos rfl, if_neg hb.ne_table, hg.filesCount, if_neg ht']
      rfl
    · have hut : u = t := List.mem_singleton.mp (((hg.allocated u).mp hu).resolve_left hut')
      rw [hg.others u hut', hut, hbcount, if_neg hb.ne_table.symm, if_pos rfl]
      rfl
  · intro p _ _
    rw [hfilesp]
    by_cases hp : p = c
    · exact ⟨t', by rw [hp, update_self]⟩
    · exact ⟨t, by rw [update_of_ne hp]⟩

/-- **Tables of files are accounted for**, as long as the processes that exit have address spaces. -/
theorem tables_accounted (hboot : s₀.Booted)
    (hrun : ReflTransGen (State.NextIf State.ExitsWithMm) s₀ s) : FilesOk s₀.tables.balance s := by
  have h := Transition.invariant (P := fun s => Ok s ∧ FilesOk s₀.tables.balance s) ?_ hrun
    ⟨hboot.ok, hboot.filesOk⟩
  · exact h.2
  · rintro s s' ⟨hok, hfiles⟩ ⟨op, ret, hen, hmm, hstep⟩
    exact ⟨(step_ok hok hen hstep).ok, filesOk_step hok hfiles hen hmm hstep⟩

set_option maxRecDepth 8000 in
/-- A process gets an address space by `do_execve` and exits. -/
theorem tables_accounted_exec : ∃ (b : ℕ → ℤ × ℤ) (s : State), FilesOk b s ∧
    s.state 2 = .PROC_ZOMBIE ∧ s.tables.allocated = [101, 100] := by
  refine ⟨_, _, tables_accounted ⟨10, 100, fun _ => 0, fun _ => 0, ⟨some 1, true, none, some 101⟩, _, _,
    ⟨?_, ?_⟩, rfl, 1, rfl, rfl⟩ (.tail (.tail (.tail (.tail (.single
      ⟨.schedule, none, Or.inr rfl, trivial, rfl⟩)
      ⟨.fork true false ⟨some 2, true, none, some 102⟩, some 2, ⟨⟨?_, rfl, rfl⟩, ?_, ?_⟩, trivial, rfl⟩)
      ⟨.schedule, none, Or.inr rfl, trivial, rfl⟩)
      ⟨.execve ⟨true, true, .ok (), .ok (2, 7), .ok 9⟩, some 0, ⟨⟨?_, rfl, rfl⟩, ?_⟩,
        fun _ => ⟨9, rfl⟩, rfl⟩)
      ⟨.exit 0, none, ⟨?_, rfl, rfl⟩, ?_, rfl⟩), rfl, rfl⟩
  · intro p hp
    cases hp
    decide
  · intro p hp
    cases hp
    decide
  · exact fun heq => nomatch heq
  · intro p hp
    cases hp
    decide
  · intro p hp
    cases hp
    decide
  · exact fun heq => nomatch heq
  · intro fd node heq
    cases heq
    exact ⟨by decide, Or.inl (by decide)⟩
  · exact fun heq => nomatch heq
  · exact fun heq => nomatch heq

set_option maxRecDepth 8000 in
/-- `user_main` has no address space; `load_icode` fails. -/
theorem failed_exec_leaks_table : ∃ s₀ s : State, s₀.Booted ∧
    ReflTransGen (State.NextIf fun _ _ => True) s₀ s ∧ ¬ FilesOk s₀.tables.balance s := by
  refine ⟨_, _, ⟨10, 100, fun _ => 0, fun _ => 0, ⟨some 1, true, none, some 101⟩, _, _,
    ⟨?_, ?_⟩, rfl, 1, rfl, rfl⟩, .tail (.tail (.tail (.single
      ⟨.schedule, none, Or.inr rfl, trivial, rfl⟩)
      ⟨.fork true false ⟨some 2, true, none, some 102⟩, some 2, ⟨⟨?_, rfl, rfl⟩, ?_, ?_⟩, trivial, rfl⟩)
      ⟨.schedule, none, Or.inr rfl, trivial, rfl⟩)
      ⟨.execve ⟨true, true, .ok (), .ok (2, 7), .error (-8)⟩, none, ⟨⟨?_, rfl, rfl⟩, ?_⟩, trivial,
        rfl⟩, ?_⟩
  · intro p hp
    cases hp
    decide
  · intro p hp
    cases hp
    decide
  · exact fun heq => nomatch heq
  · intro p hp
    cases hp
    decide
  · intro p hp
    cases hp
    decide
  · exact fun heq => nomatch heq
  · intro fd node heq
    cases heq
    exact ⟨by decide, Or.inl (by decide)⟩
  · intro h
    have hpos := (h.allocated 102).mp List.mem_cons_self
    exact absurd hpos (Nat.lt_irrefl 0)

end Ucore.Proc
