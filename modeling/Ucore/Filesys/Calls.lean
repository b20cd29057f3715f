import Ucore.Filesys.Counts

/-!
# The calls keep the counts

Every call that returns keeps the counts exact (`Ok`), and touches no table but its own and the one that it
makes.  Only the `-E_EXISTS` of `vfs_open` leaves a reference that nobody gives back (`Ok.run`).
-/

namespace Ucore.Filesys

open Sfs Vfs Memory Fallible Function RefCount

variable {τ : Type} {s s' s'' : System τ} {leaks : Node → ℕ} {t u : τ} {i : ℕ} {f : File Node}
  {n : Node} {fd : ℤ}

/-- A call on the table `t`. -/
structure Local (t : τ) (s s' : System τ) : Prop where
  filesCount : s'.filesCount = s.filesCount
  table : ∀ u, u ≠ t → s'.table u = s.table u

theorem Local.refl (t : τ) (s : System τ) : Local t s s := ⟨rfl, fun _ _ => rfl⟩

theorem Local.trans (h : Local t s s') (h' : Local t s' s'') : Local t s s'' :=
  ⟨h'.filesCount.trans h.filesCount, fun u hu => (h'.table u hu).trans (h.table u hu)⟩

theorem local_inodes (t : τ) (s : System τ) (inodes : Inodes) : Local t s { s with inodes := inodes } :=
  ⟨rfl, fun _ _ => rfl⟩

variable [DecidableEq τ]

theorem local_setTable (t : τ) (s : System τ) (tab : Table) : Local t s (s.setTable t tab) :=
  ⟨rfl, fun _ hu => update_of_ne hu _ _⟩

/-- A call that keeps the invariant. -/
structure Keeps (t : τ) (leaks : Node → ℕ) (s s' : System τ) : Prop where
  ok : Ok s' leaks
  isLocal : Local t s s'

/-- The references that nobody gives back, after one more for `o`. -/
def leaked (leaks : Node → ℕ) : Option Node → Node → ℕ
  | some n => incRef leaks n
  | none => leaks

/-! ### Descriptors -/

omit [DecidableEq τ] in
theorem Ok.fd2file (h : (s.table t).fd2file fd = some (i, f)) : (s.table t).fdArray i = some f := by
  rw [Table.fd2file] at h
  by_cases htest : Fd.State.testfd fd = true
  · rw [if_pos htest] at h
    obtain ⟨g, hg, heq⟩ := Option.map_eq_some_iff.mp h
    cases heq
    exact hg
  · rw [if_neg htest] at h
    cases h

theorem fdArrayAlloc_free {tab : Table} (h : tab.fdArrayAlloc fd = .ok i) :
    tab.fdArray i = none ∧ i < Proc.FILES_STRUCT_NENTRY := by
  rw [Table.fdArrayAlloc] at h
  by_cases hno : fd = Fd.NO_FD
  · rw [if_pos hno] at h
    cases hfind : (List.range Proc.FILES_STRUCT_NENTRY).find? fun i => (tab.fdArray i).isNone with
    | none =>
      rw [hfind] at h
      cases h
    | some j =>
      rw [hfind] at h
      cases h
      have hnone : (tab.fdArray i).isNone = true := (List.find?_eq_some_iff_append.mp hfind).1
      exact ⟨Option.isNone_iff_eq_none.mp hnone, List.mem_range.mp (List.mem_of_find?_eq_some hfind)⟩
  · rw [if_neg hno] at h
    by_cases htest : Fd.State.testfd fd = true
    · rw [if_pos htest] at h
      by_cases hfree : (tab.fdArray fd.toNat).isNone = true
      · rw [if_pos hfree] at h
        cases h
        refine ⟨Option.isNone_iff_eq_none.mp hfree, ?_⟩
        rw [Fd.State.testfd, Bool.and_eq_true, decide_eq_true_eq, decide_eq_true_eq] at htest
        omega
      · rw [if_neg hfree] at h
        cases h
    · rw [if_neg htest] at h
      cases h

/-- What `file_open` lets a descriptor of a directory do. -/
theorem accessMode_rdonly {flags : BitVec 32} (h : flags &&& O_ACCMODE = O_RDONLY) :
    (flags &&& O_ACCMODE != O_WRONLY) = true ∧ accessMode flags = some false := by
  rw [accessMode, if_pos h, h]
  exact ⟨by decide, rfl⟩

theorem Ok.fileOpen (h : Ok s leaks) (t : τ) (a b c : Alloc) (path : List UInt8) (flags : BitVec 32)
    (hi : (s.table t).fdArrayAlloc Fd.NO_FD = .ok i) :
    Yields (s.fileOpen t a b c path flags) fun x =>
      Keeps t (leaked leaks (refusedNode (s.current t) a b path flags)) s x.2 := by
  rw [System.fileOpen]
  cases hmode : accessMode flags with
  | none =>
    refine .ok ⟨?_, .refl _ _⟩
    rw [refusedNode, hmode]
    exact h
  | some canWrite =>
    rw [hi]
    obtain ⟨hfree, hlt⟩ := fdArrayAlloc_free hi
    refine (vfsOpen_spec (h.rooted t) a b c path flags).bind fun x hx => ?_
    generalize refusedNode (s.current t) a b path flags = refused at hx
    obtain ⟨r, inodes⟩ := x
    cases hx with
    | error hquiet hnone =>
      rw [hnone]
      exact .ok ⟨(h.current t).quiet hquiet, local_inodes _ _ _⟩
    | «exists» hkept hrefs hopens hsome =>
      rw [hsome]
      exact .ok ⟨(h.current t).take hkept hrefs hopens, local_inodes _ _ _⟩
    | @opened n _ hkept hrefs hopens hdir hknown hnone =>
      rw [hnone]
      refine (Yields.self _).bind fun pos _ => .ok ⟨?_, (local_inodes _ _ _).trans (local_setTable _ _ _)⟩
      refine (h.current t).openFd hfree hlt hkept hrefs hopens (fun hd => ?_) hknown
      obtain ⟨hr, hw⟩ := accessMode_rdonly (hdir hd)
      rw [hw] at hmode
      cases hmode
      exact ⟨hr, rfl⟩

theorem Ok.fdArrayClose (h : Ok s leaks) (hf : (s.table t).fdArray i = some f) :
    Yields (s.fdArrayClose t i f.node) fun s' => Ok s' leaks ∧ Local t s s' ∧
      (s'.table t).pwd = (s.table t).pwd ∧
      ∀ j, (s'.table t).fdArray j = if j = i then none else (s.table t).fdArray j := by
  rw [System.fdArrayClose]
  refine (vfsClose_spec h.tidy f.node).bind fun inodes hin => ?_
  refine .ok ⟨h.closeFd hf hin.1 hin.2.2, (local_inodes _ _ _).trans (local_setTable _ _ _), ?_, fun j => ?_⟩
  · exact setFd_pwd _ _ _ _ _
  · rw [setFd_fdArray]
    simp only [Prod.mk.injEq, true_and]

theorem Ok.fileClose (h : Ok s leaks) (t : τ) (fd : ℤ) :
    Yields (s.fileClose t fd) fun x => Keeps t leaks s x.2 := by
  rw [System.fileClose]
  cases hfd : (s.table t).fd2file fd with
  | none => exact .ok ⟨h, .refl _ _⟩
  | some p => exact (h.fdArrayClose (Ok.fd2file hfd)).bind fun s' hs' => .ok ⟨hs'.1, hs'.2.1⟩

theorem Ok.fileIo (h : Ok s leaks) (t : τ) (fd : ℤ) (base : Mem) (len : UInt64) (write : Bool)
    (drv : Inodes.Driver) :
    Yields (s.fileIo t fd base len write drv) fun x => Keeps t leaks s x.2.2.2 := by
  rw [System.fileIo]
  cases hfd : (s.table t).fd2file fd with
  | none => exact .ok ⟨h, .refl _ _⟩
  | some p =>
    refine .ite (fun _ => .ok ⟨h, .refl _ _⟩) fun _ => ?_
    refine (vopIo_quiet h.tidy _ _ _ _ _ _).bind fun x hx => .ok ⟨?_, ?_⟩
    · exact (h.quiet hx).setPos (Ok.fd2file hfd) _
    · exact (local_inodes _ _ _).trans (local_setTable _ _ _)

theorem Ok.fileSeek (h : Ok s leaks) (t : τ) (fd pos : ℤ) (whence : ℕ) :
    Yields (s.fileSeek t fd pos whence) fun x => Keeps t leaks s x.2 := by
  rw [System.fileSeek]
  cases hfd : (s.table t).fd2file fd with
  | none => exact .ok ⟨h, .refl _ _⟩
  | some p =>
    refine (Yields.self _).bind fun size _ => ?_
    cases seekTarget pos whence p.2.pos size with
    | none => exact .ok ⟨h, .refl _ _⟩
    | some target =>
      refine (vopTryseek_quiet h.tidy _ _).bind fun x hx => ?_
      by_cases hret : x.1 = 0
      · refine .ok ?_
        rw [if_pos hret]
        exact ⟨(h.quiet hx).setPos (Ok.fd2file hfd) _, (local_inodes _ _ _).trans (local_setTable _ _ _)⟩
      · refine .ok ?_
        rw [if_neg hret]
        exact ⟨h.quiet hx, local_inodes _ _ _⟩

omit [DecidableEq τ] in
theorem Ok.fileFstat (h : Ok s leaks) (t : τ) (fd : ℤ) :
    Yields (s.fileFstat t fd) fun x => Keeps t leaks s x.2.2 := by
  rw [System.fileFstat]
  cases (s.table t).fd2file fd with
  | none => exact .ok ⟨h, .refl _ _⟩
  | some p => exact (Yields.self _).bind fun _ _ => .ok ⟨h, .refl _ _⟩

omit [DecidableEq τ] in
theorem Ok.fileFsync (h : Ok s leaks) (t : τ) (fd : ℤ) :
    Yields (s.fileFsync t fd) fun x => Keeps t leaks s x.2 := by
  rw [System.fileFsync]
  cases (s.table t).fd2file fd with
  | none => exact .ok ⟨h, .refl _ _⟩
  | some p => exact (vopFsync_quiet h.tidy _).bind fun _ hx => .ok ⟨h.quiet hx, local_inodes _ _ _⟩

omit [DecidableEq τ] in
theorem Ok.fileGetdirentry (h : Ok s leaks) (t : τ) (fd : ℤ) (d : Dirent) (entry : Option Mem) :
    Yields (s.fileGetdirentry t fd d entry) fun x => Keeps t leaks s x.2.2 := by
  rw [System.fileGetdirentry]
  cases (s.table t).fd2file fd with
  | none => exact .ok ⟨h, .refl _ _⟩
  | some p => exact (vopGetdirentry_quiet h.tidy _ _ _).bind fun _ hx => .ok ⟨h.quiet hx, local_inodes _ _ _⟩

/-- A descriptor that may do what another does is made for its inode. -/
theorem Ok.fdArrayDup (h : Ok s leaks) (hi : (s.table t).fdArray i = none)
    (hlt : i < Proc.FILES_STRUCT_NENTRY) {j : ℕ} (hf : (s.table u).fdArray j = some f) :
    Ok (s.fdArrayDup t i f) leaks := by
  obtain ⟨hopen, hpos⟩ := h.desc_pos hf
  exact h.openFd hi hlt (h.tidy.refInc fun _ _ => hpos) rfl rfl (h.placed.modes u j f hf)
    (h.placed.known u j f hf)

theorem Ok.fileDup (h : Ok s leaks) (t : τ) (fd1 fd2 : ℤ) : Keeps t leaks s (s.fileDup t fd1 fd2).2 := by
  rw [System.fileDup]
  cases hfd : (s.table t).fd2file fd1 with
  | none => exact ⟨h, .refl _ _⟩
  | some p =>
    dsimp only
    cases halloc : (s.table t).fdArrayAlloc fd2 with
    | error ret => exact ⟨h, .refl _ _⟩
    | ok i =>
      obtain ⟨hfree, hlt⟩ := fdArrayAlloc_free halloc
      exact ⟨h.fdArrayDup hfree hlt (Ok.fd2file hfd), (local_inodes _ _ _).trans (local_setTable _ _ _)⟩

/-! ### The working directory -/

omit [DecidableEq τ] in
/-- A reference that was taken is given back. -/
theorem Ok.refDec (h : Ok s (incRef leaks n)) : Yields (s.refDec n) fun s' =>
    Ok s' leaks ∧ Local t s s' ∧ s'.table = s.table := by
  rw [System.refDec]
  exact (refDec_spec h.tidy n).bind fun inodes hin =>
    .ok ⟨h.give hin.1 hin.2, local_inodes _ _ _, rfl⟩

theorem setPwd_setPwd (s : System τ) (t : τ) (o o' : Option Node) :
    (s.setPwd t o).setPwd t o' = s.setPwd t o' := by
  have hset : ∀ (s : System τ) o, s.setPwd t o = s.setTable t ⟨o, (s.table t).fdArray⟩ := fun _ _ => rfl
  rw [hset, setPwd_fdArray, hset, hset]
  exact congrArg (fun table => ({ s with table := table } : System τ)) (update_idem _ _ _)

theorem Ok.vfsSetCurdir (h : Ok s leaks) (t : τ) (hpos : 0 < s.inodes.kernel.refCount n) :
    Yields (s.vfsSetCurdir t n) fun x => Keeps t leaks s x.2 := by
  rw [System.vfsSetCurdir]
  refine .ite (fun _ => .ok ⟨h, .refl _ _⟩) fun _ => (Yields.self _).bind fun _ _ => .ite (fun _ =>
    .ok ⟨h, .refl _ _⟩) fun hdir => ?_
  have htake : Ok { s with inodes := s.inodes.refInc n } (incRef leaks n) :=
    h.take (h.tidy.refInc fun _ _ => hpos) rfl rfl
  have hkind : kind (s.inodes.refInc n).kernel n = .dir := not_not.mp hdir
  have hset : Local t s ({ s with inodes := s.inodes.refInc n }.setPwd t (some n)) :=
    (local_inodes _ _ _).trans (local_setTable _ _ _)
  cases hold : (s.table t).pwd with
  | none => exact .ok ⟨htake.setPwd hold hkind, hset⟩
  | some m =>
    -- the old directory is out of the table when its reference is given back
    have hclear := htake.clearPwd (t := t) hold
    rw [incRef_comm] at hclear
    have hstored := hclear.setPwd (t := t) (by rw [setPwd_pwd, if_pos rfl]) hkind
    rw [setPwd_setPwd] at hstored
    exact (hstored.refDec (t := t)).bind fun s' hs' => .ok ⟨hs'.1, hset.trans hs'.2.1⟩

theorem Ok.vfsChdir (h : Ok s leaks) (t : τ) (a b : Alloc) (path : List UInt8) :
    Yields (s.vfsChdir t a b path) fun x => Keeps t leaks s x.2 := by
  rw [System.vfsChdir]
  refine (vfsLookup_run _ a b path).bind fun x hx => ?_
  obtain ⟨r, k, opens⟩ := x
  obtain ⟨hrun, rfl⟩ := hx
  cases vfsLookup_found (h.rooted t) a b path _ hrun with
  | error hkept hrefs =>
    exact .ok ⟨(h.current t).quiet (v := { s.inodes with kernel := k }) ⟨⟨hkept, hrefs⟩, rfl⟩,
      local_inodes _ _ _⟩
  | @found n _ hkept hrefs =>
    have htake : Ok { s with inodes := { s.inodes with kernel := k } } (incRef leaks n) :=
      (h.current t).take (v := { s.inodes with kernel := k }) hkept hrefs rfl
    have hpos : 0 < k.refCount n := by
      rw [hrefs, incRef_self]
      exact Nat.succ_pos _
    refine (htake.vfsSetCurdir t hpos).bind fun y hy => (hy.ok.refDec (t := t)).bind fun s' hs' => ?_
    exact .ok ⟨hs'.1, (local_inodes _ _ _).trans (hy.isLocal.trans hs'.2.1)⟩

omit [DecidableEq τ] in
theorem Ok.vfsGetcwd (h : Ok s leaks) (t : τ) (allocs : ℕ → Alloc) (rounds : ℕ) (entry : Option Mem)
    (mem : Mem) (iob : Iobuf) :
    Yields (s.vfsGetcwd t allocs rounds entry mem iob) fun x => Keeps t leaks s x.2.2 := by
  rw [System.vfsGetcwd]
  refine (yields_lift (vfsGetcwd_same (h.rooted t) allocs rounds entry mem iob)).bind fun o ho => ?_
  cases o with
  | none => exact .error _
  | some y =>
    exact .ok ⟨(h.current t).quiet (v := { s.inodes with kernel := y.2.1 }) ⟨ho y rfl, rfl⟩,
      local_inodes _ _ _⟩

/-! ### Processes -/

/-- The entries of `src` from `i` on are copied to `dst`, which has none there. -/
theorem Ok.dupLoop {dst src : τ} (m i : ℕ) (h : Ok s leaks)
    (hfree : ∀ j, i ≤ j → (s.table dst).fdArray j = none) :
    Keeps dst leaks s (System.dupLoop dst src m i s) := by
  induction m generalizing i s with
  | zero => exact ⟨h, .refl _ _⟩
  | succ m ih =>
    rw [System.dupLoop]
    cases hf : (s.table src).fdArray i with
    | none => exact ih (i + 1) h fun j hj => hfree j (by omega)
    | some f =>
      have hdup := h.fdArrayDup (hfree i le_rfl) (h.lt hf) hf
      have hlocal : Local dst s (s.fdArrayDup dst i f) := (local_inodes _ _ _).trans (local_setTable _ _ _)
      have hrest := ih (i + 1) hdup fun j hj => by
        rw [System.fdArrayDup, setFd_fdArray, if_neg fun heq => by
          have hji : j = i := congrArg Prod.snd heq
          omega]
        exact hfree j (by omega)
      exact ⟨hrest.ok, hlocal.trans hrest.isLocal⟩

theorem Ok.dupFiles {dst src : τ} (h : Ok s leaks) (hdst : s.table dst = Table.empty) :
    Keeps dst leaks s (s.dupFiles dst src) := by
  have hloop : ∀ {s₁ : System τ}, Ok s₁ leaks → Local dst s s₁ → (∀ j, (s₁.table dst).fdArray j = none) →
      Keeps dst leaks s (System.dupLoop dst src Proc.FILES_STRUCT_NENTRY 0 s₁) := by
    intro s₁ h₁ hlocal hfree
    have hkeeps : Keeps dst leaks s₁ (System.dupLoop dst src Proc.FILES_STRUCT_NENTRY 0 s₁) :=
      h₁.dupLoop _ 0 fun j _ => hfree j
    exact ⟨hkeeps.ok, hlocal.trans hkeeps.isLocal⟩
  have hfree : ∀ (s₁ : System τ) o j, s₁.table = s.table → ((s₁.setPwd dst o).table dst).fdArray j = none := by
    intro s₁ o j htable
    rw [setPwd_fdArray, htable, hdst]
    rfl
  rw [System.dupFiles]
  cases hpwd : (s.table src).pwd with
  | none =>
    have hsame : s.setPwd dst none = s := by
      rw [System.setPwd, hdst]
      refine congrArg (fun table => ({ s with table := table } : System τ)) (update_eq_self_iff.mpr ?_)
      rw [hdst]
      rfl
    refine hloop ?_ (local_setTable _ _ _) fun j => hfree s _ j rfl
    rw [hsame]
    exact h
  | some n =>
    have hpos := h.pwd_pos hpwd
    have htake : Ok { s with inodes := s.inodes.refInc n } (incRef leaks n) :=
      h.take (h.tidy.refInc fun _ _ => hpos) rfl rfl
    have hnone : (s.table dst).pwd = none := by rw [hdst]; rfl
    exact hloop (htake.setPwd (t := dst) hnone (h.placed.pwd src n hpwd))
      ((local_inodes _ _ _).trans (local_setTable _ _ _))
      fun j => hfree { s with inodes := s.inodes.refInc n } _ j rfl

/-- The loop closes the entries from `i` on. -/
theorem Ok.closeLoop (m i : ℕ) (h : Ok s leaks) : Yields (System.closeLoop t m i s) fun s' =>
    Keeps t leaks s s' ∧ (s'.table t).pwd = (s.table t).pwd ∧
      ∀ j, (s'.table t).fdArray j = if i ≤ j ∧ j < i + m then none else (s.table t).fdArray j := by
  induction m generalizing i s with
  | zero => exact .ok ⟨⟨h, .refl _ _⟩, rfl, fun j => (if_neg (by omega)).symm⟩
  | succ m ih =>
    rw [System.closeLoop]
    cases hf : (s.table t).fdArray i with
    | none =>
      refine (ih (i + 1) h).mono fun s' hs' => ⟨hs'.1, hs'.2.1, fun j => ?_⟩
      rw [hs'.2.2 j]
      by_cases hj : j = i
      · rw [hj, if_neg (by omega), if_pos (by omega), hf]
      · exact if_congr (by omega) rfl rfl
    | some f =>
      refine (h.fdArrayClose hf).bind fun s₁ h₁ => (ih (i + 1) h₁.1).mono fun s' hs' => ?_
      refine ⟨⟨hs'.1.ok, h₁.2.1.trans hs'.1.isLocal⟩, hs'.2.1.trans h₁.2.2.1, fun j => ?_⟩
      rw [hs'.2.2 j, h₁.2.2.2 j]
      by_cases hj : j = i
      · rw [if_neg (by omega), if_pos hj, if_pos (by omega)]
      · rw [if_neg hj]
        exact if_congr (by omega) rfl rfl

theorem Ok.filesCloseall (h : Ok s leaks) (t : τ) : Yields (s.filesCloseall t) (Keeps t leaks s) :=
  (h.closeLoop _ 2).mono fun _ hs' => hs'.1

/-- A table that is destroyed is empty. -/
theorem Ok.filesDestroy (h : Ok s leaks) (t : τ) :
    Yields (s.filesDestroy t) fun s' => Keeps t leaks s s' ∧ s'.table t = Table.empty := by
  have hpwd : Yields (match (s.table t).pwd with
      | some n => (s.setPwd t none).refDec n
      | none => .ok s) fun s' => Keeps t leaks s s' ∧ (s'.table t).pwd = none := by
    cases hold : (s.table t).pwd with
    | none => exact .ok ⟨⟨h, .refl _ _⟩, hold⟩
    | some n =>
      refine ((h.clearPwd hold).refDec (t := t)).mono fun s' hs' => ?_
      refine ⟨⟨hs'.1, (local_setTable _ _ _).trans hs'.2.1⟩, ?_⟩
      rw [hs'.2.2, setPwd_pwd, if_pos rfl]
  rw [System.filesDestroy]
  refine hpwd.bind fun s₁ h₁ => (h₁.1.ok.closeLoop _ 0).mono fun s' hs' => ?_
  refine ⟨⟨hs'.1.ok, h₁.1.isLocal.trans hs'.1.isLocal⟩, ?_⟩
  have hfd : (s'.table t).fdArray = fun _ => none := by
    funext j
    rw [hs'.2.2 j]
    by_cases hj : j < Proc.FILES_STRUCT_NENTRY
    · exact if_pos (by omega)
    · rw [if_neg (by omega)]
      exact h₁.1.ok.placed.range t j (by omega)
  have hnone := hs'.2.1.trans h₁.2
  generalize s'.table t = tab at hfd hnone
  cases tab
  cases hfd
  cases hnone
  rfl

/-! ### Any call -/

/-- The tables that are not in use are empty. -/
def Idle (s : System τ) : Prop := ∀ u, s.filesCount u = 0 → s.table u = Table.empty

omit [DecidableEq τ] in
theorem Idle.keeps (h : Idle s) (ht : 0 < s.filesCount t) (hl : Local t s s') : Idle s' := by
  intro u hu
  rw [hl.filesCount] at hu
  rw [hl.table u (by rintro rfl; omega)]
  exact h u hu

omit [DecidableEq τ] in
theorem Ok.filesCount (h : Ok s leaks) (count : τ → ℕ) : Ok { s with filesCount := count } leaks :=
  ⟨h.tidy, h.placed, h.opens, h.refs⟩

theorem Idle.filesCountInc (h : ∀ u, u ≠ t → s.filesCount u = 0 → s.table u = Table.empty) :
    Idle (s.filesCountInc t) := by
  intro u hu
  have hcount : update s.filesCount t (s.filesCount t + 1) u = 0 := hu
  by_cases hut : u = t
  · rw [hut, update_self] at hcount
    omega
  · rw [update_of_ne hut] at hcount
    exact h u hut hcount

/-- A table that is not in use is as `files_create` makes it. -/
theorem Idle.filesCreate {dst : τ} (h : Idle s) (hdst : s.filesCount dst = 0) : s.filesCreate dst = s := by
  rw [System.filesCreate, ← h dst hdst]
  exact congrArg (fun table => ({ s with table := table } : System τ)) (update_eq_self _ _)

theorem Ok.copyFiles (h : Ok s leaks) (hidle : Idle s) (t : τ) (share : Bool) {answer : Option τ}
    (hanswer : ∀ dst, answer = some dst → s.filesCount dst = 0) :
    Ok (s.copyFiles t share answer).2 leaks ∧ Idle (s.copyFiles t share answer).2 := by
  rw [System.copyFiles.eq_def]
  cases share with
  | true => exact ⟨h.filesCount _, Idle.filesCountInc fun u _ hu => hidle u hu⟩
  | false =>
    cases answer with
    | none => exact ⟨h, hidle⟩
    | some dst =>
      have hdst := hanswer dst rfl
      have hdup : Keeps dst leaks s (s.dupFiles dst t) := h.dupFiles (hidle dst hdst)
      dsimp only [Bool.false_eq_true, if_false]
      rw [hidle.filesCreate hdst]
      refine ⟨hdup.ok.filesCount _, Idle.filesCountInc fun u hu hcount => ?_⟩
      rw [hdup.isLocal.filesCount] at hcount
      rw [hdup.isLocal.table u hu]
      exact hidle u hcount

theorem Ok.putFiles (h : Ok s leaks) (hidle : Idle s) (t : τ) :
    Yields (s.putFiles t) fun s' => Ok s' leaks ∧ Idle s' := by
  have hother : ∀ u, u ≠ t → update s.filesCount t (s.filesCount t - 1) u = s.filesCount u := fun u hu =>
    update_of_ne hu _ _
  rw [System.putFiles]
  refine .ite (fun _ => ?_) fun hne => .ok ⟨h.filesCount _, fun u hu => ?_⟩
  · refine ((h.filesCount _).filesDestroy t).mono fun s' hs' => ⟨hs'.1.ok, fun u hu => ?_⟩
    by_cases hut : u = t
    · rw [hut]
      exact hs'.2
    · rw [hs'.1.isLocal.filesCount] at hu
      rw [hs'.1.isLocal.table u hut]
      exact hidle u ((hother u hut).symm.trans hu)
  · by_cases hut : u = t
    · rw [hut] at hu
      exact absurd hu hne
    · exact hidle u ((hother u hut).symm.trans hu)

/-- The inode that `file_open` finds and refuses with `-E_EXISTS`. -/
def Call.refused (s : System τ) (t : τ) : Call τ → Option Node
  | .open a b _ path flags =>
    match (s.table t).fdArrayAlloc Fd.NO_FD with
    | .ok _ => refusedNode (s.current t) a b path flags
    | .error _ => none
  | _ => none

/-- **A call that returns.** -/
theorem Ok.run (h : Ok s leaks) (hidle : Idle s) {c : Call τ} (hc : c.Enabled s t) :
    Yields (c.run s t) fun x => Ok x.2 (leaked leaks (c.refused s t)) ∧ Idle x.2 := by
  have hkeeps : 0 < s.filesCount t → ∀ {s'}, Keeps t leaks s s' → Ok s' leaks ∧ Idle s' :=
    fun ht _ hk => ⟨hk.ok, hidle.keeps ht hk.isLocal⟩
  cases c with
  | «open» a b d path flags =>
    show Yields (s.fileOpen t a b d path flags) _
    rw [Call.refused]
    cases hi : (s.table t).fdArrayAlloc Fd.NO_FD with
    | ok i => exact (h.fileOpen t a b d path flags hi).mono fun x hx => ⟨hx.ok, hidle.keeps hc hx.isLocal⟩
    | error ret =>
      rw [System.fileOpen, hi]
      cases accessMode flags with
      | none => exact .ok ⟨h, hidle⟩
      | some canWrite => exact .ok ⟨h, hidle⟩
  | close fd => exact (h.fileClose t fd).mono fun _ hx => hkeeps hc hx
  | read fd base len drv => exact .map ((h.fileIo t fd base len false drv).mono fun _ hx => hkeeps hc hx)
  | write fd base len drv => exact .map ((h.fileIo t fd base len true drv).mono fun _ hx => hkeeps hc hx)
  | seek fd pos whence => exact (h.fileSeek t fd pos whence).mono fun _ hx => hkeeps hc hx
  | fstat fd => exact .map ((h.fileFstat t fd).mono fun _ hx => hkeeps hc hx)
  | fsync fd => exact (h.fileFsync t fd).mono fun _ hx => hkeeps hc hx
  | getdirentry fd d entry => exact .map ((h.fileGetdirentry t fd d entry).mono fun _ hx => hkeeps hc hx)
  | dup fd1 fd2 => exact .ok (hkeeps hc (h.fileDup t fd1 fd2))
  | chdir a b path => exact (h.vfsChdir t a b path).mono fun _ hx => hkeeps hc hx
  | getcwd allocs rounds entry mem iob =>
    exact .map ((h.vfsGetcwd t allocs rounds entry mem iob).mono fun _ hx => hkeeps hc hx)
  | fork share answer =>
    refine .ok (h.copyFiles hidle t share fun dst hdst => ?_)
    rw [hdst] at hc
    exact hc.2
  | exec => exact .map ((h.filesCloseall t).mono fun _ hx => hkeeps hc hx)
  | exit => exact .map (h.putFiles hidle t)

end Ucore.Filesys
