import Ucore.Filesys.Lookup

/-!
# What opening and closing do to the counts

The operations on an inode change no count (`Quiet`).  `vfs_close` gives one reference and one open back
(`vfsClose_spec`).  `vfs_open` has three ways to end (`Opened`): with one reference and one open to the
inode that it gives; with an error and the counts as they were; and, where `O_CREAT` and `O_EXCL` ask for a
file that is there, with the error `-E_EXISTS` and the reference that the lookup has taken, which nobody
gives back.
-/

namespace Ucore.Filesys

open Sfs Vfs Memory Fallible Function Inodes

variable {s s' s'' : Inodes} {k : Kernel} {n : Node} {α : Type} {x : Except Panic α} {Q : α → Prop}

theorem yields_lift (h : Yields x Q) : Yields (lift x) Q := by
  intro a ha
  cases x with
  | error p => cases ha
  | ok b =>
    cases ha
    exact h a rfl

/-- An operation that has changed no count. -/
structure Quiet (s s' : Inodes) : Prop extends Same s.kernel s'.kernel where
  opens : s'.openCount = s.openCount

theorem Quiet.refl (h : Tidy s.kernel) : Quiet s s := ⟨⟨h.kept, rfl⟩, rfl⟩

theorem Same.le (h : Same k k') (n : Node) : k.refCount n ≤ k'.refCount n := by rw [h.refs]

theorem Rooted.same {k' : Kernel} (h : Rooted k) (hsame : Same k k') : Rooted k' := by
  obtain ⟨hkept, hrefs⟩ := hsame
  refine ⟨hkept.tidy, fun n hn => ?_, fun n hn => ?_, fun n hn => ?_, fun n hn => ?_, ?_⟩
  · rw [hrefs]
    exact h.pwd n (hkept.pwd ▸ hn)
  · rw [hrefs]
    exact h.bootfs n (hkept.bootfs ▸ hn)
  · rw [Known, hkept.vdevList]
    exact h.pwdKnown n (hkept.pwd ▸ hn)
  · rw [Known, hkept.vdevList]
    exact h.bootfsKnown n (hkept.bootfs ▸ hn)
  · rw [hkept.vdevList, hrefs]
    exact h.devices

theorem Same.trans {k' k'' : Kernel} (h : Same k k') (h' : Same k' k'') : Same k k'' :=
  ⟨h.kept.trans h.le h'.kept, h'.refs.trans h.refs⟩

theorem Quiet.setInode (h : Tidy s.kernel) {ino : ℕ} {fs : Fs} {sin : Inode}
    (hs : SameType (s.kernel.mount.inode ino) sin) :
    Quiet s (s.setMount (s.kernel.mount.setInode ino fs sin)) := ⟨⟨h.setInode hs, rfl⟩, rfl⟩

/-! ### Operations on an inode -/

theorem vopFsync_quiet (h : Tidy s.kernel) (n : Node) : Yields (s.vopFsync n) (Quiet s) := by
  rw [vopFsync.eq_def]
  refine (Yields.self _).bind fun _ _ => ?_
  cases n with
  | sfs ino =>
    exact (yields_lift (sfsFsync_same _ _)).bind fun m hm => .ok ⟨⟨h.setMount hm, rfl⟩, rfl⟩
  | dev devname => exact .ok (.refl h)

theorem vopClose_quiet (h : Tidy s.kernel) (n : Node) : Yields (s.vopClose n) (Quiet s) := by
  rw [vopClose.eq_def]
  refine (Yields.self _).bind fun _ _ => ?_
  cases n with
  | sfs ino => exact vopFsync_quiet h _
  | dev devname => exact .ok (.refl h)

theorem vopTruncate_quiet (h : Tidy s.kernel) (n : Node) (len : ℤ) :
    Yields (s.vopTruncate n len) fun x => Quiet s x.2 := by
  rw [vopTruncate.eq_def]
  refine (Yields.self _).bind fun _ _ => ?_
  cases n with
  | sfs ino => exact (yields_lift (sfsTruncfile_type _ _ _)).bind fun _ hx => .ok (.setInode h hx)
  | dev devname => exact .ok (.refl h)

theorem vopTryseek_quiet (h : Tidy s.kernel) (n : Node) (pos : ℤ) :
    Yields (s.vopTryseek n pos) fun x => Quiet s x.2 := by
  rw [vopTryseek.eq_def]
  refine (Yields.self _).bind fun _ _ => ?_
  cases n with
  | sfs ino => exact (yields_lift (sfsTryseek_type _ _ _)).bind fun _ hx => .ok (.setInode h hx)
  | dev devname => exact .ok (.refl h)

theorem vopIo_quiet (h : Tidy s.kernel) (n : Node) (base : Mem) (pos : ℤ) (len : UInt64) (write : Bool)
    (drv : Driver) : Yields (s.vopIo n base pos len write drv) fun x => Quiet s x.2.2.2 := by
  rw [vopIo.eq_def]
  refine (Yields.self _).bind fun _ _ => ?_
  cases n with
  | sfs ino => exact (yields_lift (sfsIoNolock_type _ _ _ _ _ _)).bind fun _ hx => .ok (.setInode h hx)
  | dev devname => exact .ok (.refl h)

theorem vopGetdirentry_quiet (h : Tidy s.kernel) (n : Node) (d : Dirent) (entry : Option Mem) :
    Yields (s.vopGetdirentry n d entry) fun x => Quiet s x.2.2 := by
  rw [vopGetdirentry.eq_def]
  refine (Yields.self _).bind fun _ _ => ?_
  cases n with
  | sfs ino => exact (yields_lift (sfsGetdirentry_type _ _ _ _)).bind fun _ hx => .ok (.setInode h hx)
  | dev devname => exact .ok (.refl h)

/-! ### Closing -/

/-- What has given one reference to `n` back. -/
structure Dropped (n : Node) (s s' : Inodes) : Prop where
  kept : Kept s.kernel s'.kernel
  pos : 0 < s.kernel.refCount n
  refs : s'.kernel.refCount = decRef s.kernel.refCount n

theorem refDec_run (s : Inodes) (n : Node) : Yields (s.refDec n) fun s' =>
    s.kernel.refDec n = .ok s'.kernel ∧ s'.openCount = s.openCount := by
  rw [Inodes.refDec]
  exact (Yields.self _).bind fun _ _ => (yields_lift (Yields.self _)).bind fun k' hk' => .ok ⟨hk', rfl⟩

/-- `inode_ref_dec` -/
theorem refDec_spec (h : Tidy s.kernel) (n : Node) :
    Yields (s.refDec n) fun s' => Dropped n s s' ∧ s'.openCount = s.openCount :=
  (refDec_run s n).mono fun _ hs' =>
    have hkept := refDec_kept h _ hs'.1
    ⟨⟨hkept.2.1, hkept.1, hkept.2.2⟩, hs'.2⟩

/-- A reference that was taken since `k` is given back. -/
theorem refDec_since (h : Kept k s.kernel) (hrefs : s.kernel.refCount = incRef k.refCount n) :
    Yields (s.refDec n) fun s' => Same k s'.kernel ∧ s'.openCount = s.openCount :=
  (refDec_run s n).mono fun _ hs' =>
    have hkept := refDec_incRef h hrefs (fun _ => le_rfl) _ hs'.1
    ⟨⟨hkept.1, hkept.2⟩, hs'.2⟩

/-- `inode_open_dec` -/
theorem openDec_spec (h : Tidy s.kernel) (n : Node) : Yields (s.openDec n) fun s' =>
    0 < s.openCount n ∧ Same s.kernel s'.kernel ∧ s'.openCount = decRef s.openCount n := by
  rw [openDec]
  refine (yields_lift Yields.require).bind fun _ hpos => .ite (fun _ => ?_) fun _ =>
    .ok ⟨hpos, ⟨h.kept, rfl⟩, rfl⟩
  exact (vopClose_quiet (s := { s with openCount := decRef s.openCount n }) h n).mono fun s' hs' =>
    ⟨hpos, hs'.toSame, hs'.opens⟩

/-- **`vfs_close`** -/
theorem vfsClose_spec (h : Tidy s.kernel) (n : Node) : Yields (s.vfsClose n) fun s' =>
    Dropped n s s' ∧ 0 < s.openCount n ∧ s'.openCount = decRef s.openCount n := by
  rw [vfsClose]
  refine (openDec_spec h n).bind fun s₁ h₁ => ?_
  obtain ⟨hpos, hsame, hopens⟩ := h₁
  refine (refDec_spec hsame.kept.tidy n).mono fun s₂ h₂ => ?_
  obtain ⟨⟨hkept, hpos', hrefs⟩, hopens'⟩ := h₂
  rw [hsame.refs] at hpos' hrefs
  exact ⟨⟨hsame.kept.trans hsame.le hkept, hpos', hrefs⟩, hpos, hopens'.trans hopens⟩

/-! ### Opening -/

/-- Where it returns, it does what it does without the tables. -/
theorem vfsLookup_run (s : Inodes) (a b : Alloc) (path : List UInt8) : Yields (s.vfsLookup a b path) fun x =>
    s.kernel.vfsLookup a b path = .ok (x.1, x.2.kernel) ∧ x.2.openCount = s.openCount := by
  rw [Inodes.vfsLookup, Kernel.vfsLookup]
  refine (yields_lift (Yields.self _)).bind fun x hx => ?_
  rw [hx]
  obtain ⟨r, k⟩ := x
  cases r with
  | error ret => exact .ok ⟨rfl, rfl⟩
  | ok start =>
    obtain ⟨sub, node⟩ := start
    refine .ite (fun hsub => ?_) fun hsub => .ok ⟨if_neg hsub, rfl⟩
    refine (Yields.self _).bind fun _ _ => (yields_lift (Yields.self _)).bind fun y hy =>
      (refDec_run _ _).bind fun s' hs' => .ok ⟨?_, hs'.2⟩
    obtain ⟨r, k'⟩ := y
    have hdec : k'.refDec node = .ok s'.kernel := hs'.1
    show (if sub ≠ [] then _ else _) = _
    rw [if_pos hsub, hy, bind_ok]
    dsimp only
    rw [hdec, bind_ok]

/-- The inode for which `vfs_open` returns `-E_EXISTS`. -/
def refusedNode (s : Inodes) (a b : Alloc) (path : List UInt8) (flags : BitVec 32) : Option Node :=
  match accessMode flags with
  | none => none
  | some canWrite =>
    if vfsOpenCheck flags canWrite = -E_EXISTS then
      match s.kernel.vfsLookup a b path with
      | .ok (.ok n, _) => some n
      | _ => none
    else none

/-- How `vfs_open` ends; `refused` is the inode for which it returns `-E_EXISTS`. -/
inductive Opened (s : Inodes) (flags : BitVec 32) (refused : Option Node) : Ret Node → Inodes → Prop
  | opened {n : Node} {s' : Inodes} (hkept : Kept s.kernel s'.kernel)
      (hrefs : s'.kernel.refCount = incRef s.kernel.refCount n)
      (hopens : s'.openCount = incRef s.openCount n)
      (hdir : kind s'.kernel n = .dir → flags &&& O_ACCMODE = O_RDONLY) (hknown : Known s.kernel n)
      (hnone : refused = none) : Opened s flags refused (.ok n) s'
  | error {ret : ℤ} {s' : Inodes} (hquiet : Quiet s s') (hnone : refused = none) :
      Opened s flags refused (.error ret) s'
  | exists {n : Node} {s' : Inodes} (hkept : Kept s.kernel s'.kernel)
      (hrefs : s'.kernel.refCount = incRef s.kernel.refCount n) (hopens : s'.openCount = s.openCount)
      (hsome : refused = some n) : Opened s flags refused (.error (-E_EXISTS)) s'

/-- A directory is opened for reading only. -/
theorem vopOpen_dir (n : Node) (flags : BitVec 32) : Yields (s.vopOpen n flags) fun ret =>
    ret = 0 → kind s.kernel n = .dir → flags &&& O_ACCMODE = O_RDONLY := by
  rw [vopOpen.eq_def]
  refine (Yields.self _).bind fun _ _ => ?_
  cases n with
  | sfs ino =>
    refine .ok fun hret hdir => ?_
    rw [if_pos hdir, sfsOpendir] at hret
    by_contra hmode
    rw [if_pos hmode] at hret
    exact absurd hret (by decide)
  | dev devname => exact .ok fun _ hdir => nomatch hdir

theorem vfsOpenCheck_trunc {flags : BitVec 32} {canWrite : Bool}
    (h : testFlag flags O_TRUNC = true ∧ canWrite = false) : vfsOpenCheck flags canWrite ≠ -E_EXISTS := by
  rw [vfsOpenCheck, if_pos h]
  decide

theorem vfsOpenCheck_exists {flags : BitVec 32} {canWrite : Bool}
    (h : ¬ (testFlag flags O_TRUNC = true ∧ canWrite = false)) :
    vfsOpenCheck flags canWrite = -E_EXISTS ↔
      testFlag flags O_EXCL = true ∧ testFlag flags O_CREAT = true := by
  rw [vfsOpenCheck, if_neg h]
  constructor
  · intro hcheck
    by_contra hnot
    rw [if_neg hnot] at hcheck
    exact absurd hcheck (by decide)
  · intro hboth
    rw [if_pos hboth]

/-- **`vfs_open`** -/
theorem vfsOpen_spec (h : Rooted s.kernel) (a b c : Alloc) (path : List UInt8) (flags : BitVec 32) :
    Yields (s.vfsOpen a b c path flags) fun x => Opened s flags (refusedNode s a b path flags) x.1 x.2 := by
  rw [vfsOpen, refusedNode]
  cases accessMode flags with
  | none => exact .ok (.error (.refl h.toTidy) rfl)
  | some canWrite =>
    refine .ite (fun htrunc => .ok (.error (.refl h.toTidy) (if_neg (vfsOpenCheck_trunc htrunc)))) fun htrunc => ?_
    dsimp only
    simp only [vfsOpenCheck_exists htrunc]
    refine (vfsLookup_run s a b path).bind fun x hx => ?_
    obtain ⟨r, k, opens⟩ := x
    obtain ⟨hrun, rfl⟩ := hx
    have hfound := vfsLookup_found h a b path _ hrun
    have hknown := vfsLookup_known h a b path _ hrun
    rw [hrun]
    clear hrun
    cases hfound with
    | @error ret _ hkept hrefs =>
      have hnone : (if testFlag flags O_EXCL = true ∧ testFlag flags O_CREAT = true then
          (none : Option Node) else none) = none := ite_self _
      have hquiet : Quiet s { s with kernel := k } := ⟨⟨hkept, hrefs⟩, rfl⟩
      refine .ite (fun _ => ?_) fun _ => .ok (.error hquiet hnone)
      have hrooted : Rooted k := h.same ⟨hkept, hrefs⟩
      refine (yields_lift (getDevice_found hrooted c _)).bind fun y hy => ?_
      obtain ⟨r', k'⟩ := y
      cases r' with
      | error ret' =>
        cases hy with
        | error hkept' hrefs' =>
          exact .ok (.error ⟨hquiet.toSame.trans ⟨hkept', hrefs'⟩, rfl⟩ hnone)
      | ok start =>
        -- no inode can create a file
        refine Yields.require.bind fun _ hmem => absurd hmem ?_
        cases kind k' start.2 <;> decide
    | @found n _ hkept hrefs =>
      dsimp only
      refine .ite (fun hexcl => .ok (.exists hkept hrefs rfl (if_pos hexcl))) fun hexcl => ?_
      rw [if_neg hexcl]
      refine (vopOpen_dir n flags).bind fun ret hret => .ite (fun _ => ?_) fun hzero => ?_
      · exact (refDec_since (s := { s with kernel := k }) hkept hrefs).bind fun s₁ h₁ =>
          .ok (.error ⟨h₁.1, h₁.2⟩ rfl)
      have hdir := hret (not_not.mp hzero)
      have hpos : 0 < k.refCount n := by
        rw [hrefs, incRef_self]
        exact Nat.succ_pos _
      have hle : ∀ p, s.kernel.refCount p ≤ k.refCount p := fun p => by
        rw [hrefs]
        exact le_incRef
      refine .ite (fun _ => ?_) fun _ => .ok (.opened hkept hrefs rfl hdir (hknown n rfl) rfl)
      refine (vopTruncate_quiet (s := Inodes.openInc { s with kernel := k } n) hkept.tidy n 0).bind
        fun x hx => .ite (fun _ => ?_) fun _ => ?_
      · -- both counts go back
        refine (openDec_spec hx.kept.tidy n).bind fun s₁ h₁ => ?_
        obtain ⟨-, hsame, hopens⟩ := h₁
        have hrefs₁ : s₁.kernel.refCount = incRef s.kernel.refCount n :=
          (hsame.refs.trans hx.refs).trans hrefs
        have hkept₁ : Kept s.kernel s₁.kernel := hkept.trans hle (hx.toSame.trans hsame).kept
        refine (refDec_since hkept₁ hrefs₁).bind fun s₂ h₂ => .ok (.error ⟨h₂.1, ?_⟩ rfl)
        rw [h₂.2, hopens, hx.opens]
        exact decRef_incRef
      · refine .ok (.opened (hkept.trans hle hx.kept) (hx.refs.trans hrefs) hx.opens ?_ (hknown n rfl) rfl)
        rw [hx.kept.kind hpos]
        exact hdir

end Ucore.Filesys
