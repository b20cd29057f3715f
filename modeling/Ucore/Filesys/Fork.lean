import Ucore.Filesys.Runs

/-!
# Descriptors after a fork

`dup_files` copies the entries of a table with their positions, so that a position is not shared after
`do_fork`.  A table changes only by calls of the processes that use it (`Ok.run_untouched`), and therefore
each side keeps what it had at the fork as long as it makes no call: **`fork_snapshot`**.
-/

namespace Ucore.Filesys

open Sfs Vfs Memory Fallible Function RefCount

variable {τ : Type} [DecidableEq τ] {s₀ s s' s'' : System τ} {leaks : Node → ℕ} {t₀ t u dst src : τ}

/-! ### The calls of others -/

/-- The table `u` and the number of its processes are the same. -/
structure Untouched (u : τ) (s s' : System τ) : Prop where
  table : s'.table u = s.table u
  filesCount : s'.filesCount u = s.filesCount u

omit [DecidableEq τ] in
theorem Untouched.refl (u : τ) (s : System τ) : Untouched u s s := ⟨rfl, rfl⟩

omit [DecidableEq τ] in
theorem Untouched.trans (h : Untouched u s s') (h' : Untouched u s' s'') : Untouched u s s'' :=
  ⟨h'.table.trans h.table, h'.filesCount.trans h.filesCount⟩

omit [DecidableEq τ] in
theorem Local.untouched (h : Local t s s') (hne : u ≠ t) : Untouched u s s' :=
  ⟨h.table u hne, congrFun h.filesCount u⟩

/-- The number of processes of the table `t` changes. -/
theorem untouched_filesCount (hne : u ≠ t) (n : ℕ) :
    Untouched u s { s with filesCount := update s.filesCount t n } :=
  ⟨rfl, update_of_ne hne _ _⟩

/-- `copy_files` with a new table `dst`. -/
theorem Ok.fork_untouched (h : Ok s leaks) (hidle : Idle s) (hdst : s.filesCount dst = 0) (hne : u ≠ dst) :
    Untouched u s (s.copyFiles t false (some dst)).2 := by
  have hdup : Keeps dst leaks s (s.dupFiles dst t) := h.dupFiles (hidle dst hdst)
  rw [System.copyFiles.eq_def]
  dsimp only [Bool.false_eq_true, if_false]
  rw [hidle.filesCreate hdst]
  exact (hdup.isLocal.untouched hne).trans (untouched_filesCount hne _)

theorem Ok.copyFiles_untouched (h : Ok s leaks) (hidle : Idle s) (hne : u ≠ t) (hu : 0 < s.filesCount u)
    (share : Bool) {answer : Option τ} (hanswer : ∀ dst, answer = some dst → s.filesCount dst = 0) :
    Untouched u s (s.copyFiles t share answer).2 := by
  cases share with
  | true => exact untouched_filesCount hne _
  | false =>
    cases answer with
    | none => exact .refl u s
    | some dst =>
      have hdst := hanswer dst rfl
      refine h.fork_untouched hidle hdst ?_
      rintro rfl
      omega

theorem Ok.putFiles_untouched (h : Ok s leaks) (hne : u ≠ t) :
    Yields (s.putFiles t) fun s' => Untouched u s s' := by
  rw [System.putFiles]
  refine .ite (fun _ => ?_) fun _ => .ok (untouched_filesCount hne _)
  exact ((h.filesCount _).filesDestroy t).mono fun s' hs' =>
    (untouched_filesCount hne _).trans (hs'.1.isLocal.untouched hne)

/-- **A table changes only by calls of the processes that use it.** -/
theorem Ok.run_untouched (h : Ok s leaks) (hidle : Idle s) {c : Call τ} (hc : c.Enabled s t) (hne : u ≠ t)
    (hu : 0 < s.filesCount u) : Yields (c.run s t) fun x => Untouched u s x.2 := by
  have hkeeps : ∀ {leaks'} {s'}, Keeps t leaks' s s' → Untouched u s s' := fun hk => hk.isLocal.untouched hne
  cases c with
  | «open» a b d path flags =>
    show Yields (s.fileOpen t a b d path flags) _
    cases hi : (s.table t).fdArrayAlloc Fd.NO_FD with
    | ok i => exact (h.fileOpen t a b d path flags hi).mono fun x hx => hkeeps hx
    | error ret =>
      rw [System.fileOpen, hi]
      cases accessMode flags with
      | none => exact .ok (.refl u s)
      | some canWrite => exact .ok (.refl u s)
  | close fd => exact (h.fileClose t fd).mono fun _ hx => hkeeps hx
  | read fd base len drv => exact .map ((h.fileIo t fd base len false drv).mono fun _ hx => hkeeps hx)
  | write fd base len drv => exact .map ((h.fileIo t fd base len true drv).mono fun _ hx => hkeeps hx)
  | seek fd pos whence => exact (h.fileSeek t fd pos whence).mono fun _ hx => hkeeps hx
  | fstat fd => exact .map ((h.fileFstat t fd).mono fun _ hx => hkeeps hx)
  | fsync fd => exact (h.fileFsync t fd).mono fun _ hx => hkeeps hx
  | getdirentry fd d entry => exact .map ((h.fileGetdirentry t fd d entry).mono fun _ hx => hkeeps hx)
  | dup fd1 fd2 => exact .ok (hkeeps (h.fileDup t fd1 fd2))
  | chdir a b path => exact (h.vfsChdir t a b path).mono fun _ hx => hkeeps hx
  | getcwd allocs rounds entry mem iob =>
    exact .map ((h.vfsGetcwd t allocs rounds entry mem iob).mono fun _ hx => hkeeps hx)
  | fork share answer =>
    refine .ok (h.copyFiles_untouched hidle hne hu share fun dst hdst => ?_)
    rw [hdst] at hc
    exact hc.2
  | exec => exact .map ((h.filesCloseall t).mono fun _ hx => hkeeps hx)
  | exit => exact .map (h.putFiles_untouched hne)

/-- Any number of calls of processes with other tables than `u`. -/
inductive Others (u : τ) (s : System τ) : System τ → Prop
  | start : Others u s s
  | call {s' s'' : System τ} {t : τ} {c : Call τ} {ret : ℤ} (h : Others u s s') (hne : u ≠ t)
      (hc : c.Enabled s' t) (hret : c.run s' t = .ok (ret, s'')) : Others u s s''

theorem Others.run (h : Others u s s') (hrun : Run s₀ s leaks) : ∃ leaks', Run s₀ s' leaks' := by
  induction h with
  | start => exact ⟨leaks, hrun⟩
  | call _ _ hc hret ih =>
    obtain ⟨leaks', hrun'⟩ := ih
    exact ⟨_, hrun'.call hc hret⟩

theorem Others.untouched (h : Others u s s') (h₀ : Initial s₀ t₀) (hrun : Run s₀ s leaks)
    (hu : 0 < s.filesCount u) : Untouched u s s' := by
  induction h with
  | start => exact .refl u s
  | @call s₁ s₂ t c ret hothers hne hc hret ih =>
    obtain ⟨leaks', hrun'⟩ := hothers.run hrun
    obtain ⟨hok, hidle⟩ := hrun'.ok h₀
    have hstep := hok.run_untouched hidle hc hne (by rw [ih.filesCount]; exact hu) _ hret
    exact ih.trans hstep

/-! ### The copy -/

/-- The loop copies the entries from `i` on. -/
theorem dupLoop_fdArray (hne : src ≠ dst) (m i : ℕ) (s : System τ)
    (hfree : ∀ j, i ≤ j → (s.table dst).fdArray j = none) :
    ((System.dupLoop dst src m i s).table dst).pwd = (s.table dst).pwd ∧
    ∀ j, ((System.dupLoop dst src m i s).table dst).fdArray j =
      if i ≤ j ∧ j < i + m then (s.table src).fdArray j else (s.table dst).fdArray j := by
  induction m generalizing i s with
  | zero => exact ⟨rfl, fun j => (if_neg (by omega)).symm⟩
  | succ m ih =>
    rw [System.dupLoop]
    cases hf : (s.table src).fdArray i with
    | none =>
      obtain ⟨hpwd, hentries⟩ := ih (i + 1) s fun j hj => hfree j (by omega)
      refine ⟨hpwd, fun j => (hentries j).trans ?_⟩
      by_cases hj : j = i
      · rw [hj, if_neg (by omega), if_pos (by omega), hf]
        exact hfree i le_rfl
      · by_cases hin : i ≤ j ∧ j < i + (m + 1)
        · rw [if_pos (by omega), if_pos hin]
        · rw [if_neg (by omega), if_neg hin]
    | some f =>
      have hset : ∀ v j, ((s.fdArrayDup dst i f).table v).fdArray j =
          if (v, j) = (dst, i) then some f else (s.table v).fdArray j := fun v j => by
        rw [System.fdArrayDup, setFd_fdArray]
      have hsrc : ∀ j, ((s.fdArrayDup dst i f).table src).fdArray j = (s.table src).fdArray j := fun j => by
        rw [hset, if_neg fun heq => hne (congrArg Prod.fst heq)]
      have hdst : ∀ j, j ≠ i → ((s.fdArrayDup dst i f).table dst).fdArray j = (s.table dst).fdArray j :=
        fun j hj => by rw [hset, if_neg fun heq => hj (congrArg Prod.snd heq)]
      have hpwd' : ((s.fdArrayDup dst i f).table dst).pwd = (s.table dst).pwd := by
        show (update s.table dst _ dst).pwd = _
        rw [update_self]
      obtain ⟨hpwd, hentries⟩ := ih (i + 1) (s.fdArrayDup dst i f) fun j hj => by
        rw [hdst j (by omega)]
        exact hfree j (by omega)
      refine ⟨hpwd.trans hpwd', fun j => (hentries j).trans ?_⟩
      by_cases hj : j = i
      · rw [hj, if_neg (by omega), if_pos (by omega), hset, if_pos rfl, hf]
      · rw [hsrc, hdst j hj]
        by_cases hin : i ≤ j ∧ j < i + (m + 1)
        · rw [if_pos (by omega), if_pos hin]
        · rw [if_neg (by omega), if_neg hin]

/-- **`dup_files`** makes a copy of the table. -/
theorem Ok.dupFiles_table (h : Ok s leaks) (hne : src ≠ dst) (hdst : s.table dst = Table.empty) :
    (s.dupFiles dst src).table dst = s.table src := by
  have hloop : ∀ s₁ : System τ, s₁.table = update s.table dst ⟨(s.table src).pwd, fun _ => none⟩ →
      (System.dupLoop dst src Proc.FILES_STRUCT_NENTRY 0 s₁).table dst = s.table src := by
    intro s₁ htable
    have hsrc : s₁.table src = s.table src := by rw [htable, update_of_ne hne]
    have hdst₁ : s₁.table dst = ⟨(s.table src).pwd, fun _ => none⟩ := by rw [htable, update_self]
    obtain ⟨hpwd, hentries⟩ := dupLoop_fdArray hne Proc.FILES_STRUCT_NENTRY 0 s₁ fun j _ => by rw [hdst₁]
    rw [hsrc, hdst₁] at hentries
    rw [hdst₁] at hpwd
    have hfd : ((System.dupLoop dst src Proc.FILES_STRUCT_NENTRY 0 s₁).table dst).fdArray =
        (s.table src).fdArray := by
      funext j
      rw [hentries j]
      by_cases hj : j < Proc.FILES_STRUCT_NENTRY
      · exact if_pos (by omega)
      · rw [if_neg (by omega), h.placed.range src j (by omega)]
    generalize (System.dupLoop dst src Proc.FILES_STRUCT_NENTRY 0 s₁).table dst = tab at hpwd hfd
    generalize s.table src = tab' at hpwd hfd
    cases tab
    cases hpwd
    cases hfd
    rfl
  have hset : (s.setPwd dst (s.table src).pwd).table =
      update s.table dst ⟨(s.table src).pwd, fun _ => none⟩ := by
    rw [System.setPwd, hdst]
    rfl
  rw [System.dupFiles]
  cases hpwd : (s.table src).pwd with
  | none =>
    rw [hpwd] at hset hloop
    exact hloop _ hset
  | some n =>
    rw [hpwd] at hset hloop
    exact hloop _ hset

/-- **Both tables** after `copy_files` with a new table `dst`. -/
theorem Ok.fork_table (h : Ok s leaks) (hidle : Idle s) (hdst : s.filesCount dst = 0)
    (ht : 0 < s.filesCount t) (hu : u = t ∨ u = dst) :
    (s.copyFiles t false (some dst)).2.table u = s.table t ∧
      0 < (s.copyFiles t false (some dst)).2.filesCount u := by
  have hne : t ≠ dst := by
    rintro rfl
    omega
  rcases hu with rfl | rfl
  · have hsame := h.fork_untouched (t := u) hidle hdst hne
    exact ⟨hsame.table, by rw [hsame.filesCount]; exact ht⟩
  · rw [System.copyFiles.eq_def]
    dsimp only [Bool.false_eq_true, if_false]
    rw [hidle.filesCreate hdst]
    refine ⟨h.dupFiles_table hne (hidle u hdst), ?_⟩
    show 0 < update (s.dupFiles u t).filesCount u ((s.dupFiles u t).filesCount u + 1) u
    rw [update_self]
    exact Nat.succ_pos _

/-- **Parent and child after a fork**, in any run of calls of other processes: what the table has, the
positions among it, is what the parent had at the fork, and the open inodes are still referred to. -/
theorem fork_snapshot (h₀ : Initial s₀ t₀) (hrun : Run s₀ s leaks)
    (hfork : (Call.fork false (some dst)).Enabled s t) (hu : u = t ∨ u = dst)
    (hothers : Others u (s.copyFiles t false (some dst)).2 s') :
    s'.table u = s.table t ∧ ∀ i f, (s.table t).fdArray i = some f →
      0 < s'.inodes.openCount f.node ∧ 0 < s'.inodes.kernel.refCount f.node := by
  obtain ⟨ht, hdst⟩ := hfork
  obtain ⟨h, hidle⟩ := hrun.ok h₀
  obtain ⟨htable, hcount⟩ := h.fork_table hidle hdst ht hu
  have hforked := hrun.call (c := .fork false (some dst)) (t := t) ⟨ht, hdst⟩ rfl
  have hsame : s'.table u = s.table t := (hothers.untouched h₀ hforked hcount).table.trans htable
  obtain ⟨leaks', hrun'⟩ := hothers.run hforked
  obtain ⟨h', -⟩ := hrun'.ok h₀
  refine ⟨hsame, fun i f hf => ?_⟩
  rw [← hsame] at hf
  exact h'.desc_pos hf

/-- The first process opens `a`, has a child with the table 1, and closes `a`. -/
def openForkClose : Except Stop (System ℕ × System ℕ) := do
  let (_, s) ← Call.run nestedSystem 0 (.open plenty plenty plenty [97] O_RDONLY)
  let (_, s') ← Call.run (s.copyFiles 0 false (some 1)).2 0 (.close 0)
  .ok (s, s')

/-- The child has the descriptor that its parent has closed. -/
theorem fork_snapshot_close : ∃ s s' : System ℕ, (s'.table 0).fdArray 0 = none ∧ s'.table 1 = s.table 0 ∧
    ∀ i f, (s.table 0).fdArray i = some f →
      0 < s'.inodes.openCount f.node ∧ 0 < s'.inodes.kernel.refCount f.node := by
  have hcheck : (openForkClose.toOption.any fun x => x.1.filesCount 0 = 1 ∧ x.1.filesCount 1 = 0 ∧
      (x.1.copyFiles 0 false (some 1)).2.filesCount 0 = 1 ∧ ((x.2.table 0).fdArray 0).isNone) = true := by
    decide +kernel
  obtain ⟨⟨s, s'⟩, hx, hfacts⟩ := exists_ok_of_any hcheck
  obtain ⟨hzero, hone, hforked, hclosed⟩ := of_decide_eq_true hfacts
  obtain ⟨⟨_, s₁⟩, hopen, hx⟩ := bind_eq_ok.mp hx
  obtain ⟨⟨_, s₂⟩, hclose, hx⟩ := bind_eq_ok.mp hx
  cases hx
  have hrun := Run.call .start (show (Call.open plenty plenty plenty [97] O_RDONLY).Enabled nestedSystem 0 from
    Nat.one_pos) hopen
  have hothers : Others 1 (s.copyFiles 0 false (some 1)).2 s' :=
    .call .start (t := 0) (c := .close 0) (by decide) (Nat.one_pos.trans_eq hforked.symm) hclose
  refine ⟨s, s', Option.isNone_iff_eq_none.mp hclosed, ?_⟩
  exact fork_snapshot initial_nested hrun ⟨Nat.one_pos.trans_eq hzero.symm, hone⟩ (.inr rfl) hothers

end Ucore.Filesys
