import Ucore.Filesys.Opening
import Ucore.Lib.RefCount

/-!
# The counts and what they count

The open count of an inode is the number of descriptors that refer to it.  Its reference count is this,
and the number of tables with it as the working directory, and one for `bootfs_node` or for the entry of a
device in `vdev_list`, and the references that nobody gives back (`Ok`).

A call takes a reference before it stores it, and removes it from a table before it gives it back: in
between it counts as one that nobody gives back (`Ok.take`, `Ok.give`, `Ok.setPwd`, `Ok.clearPwd`).
-/

namespace Ucore.Filesys

open Sfs Vfs Fallible Function RefCount

variable {τ : Type} {s : System τ} {v : Inodes} {k k' : Kernel} {leaks : Node → ℕ} {t : τ}
  {i : ℕ} {f : File Node} {n : Node}

/-- The inode of a descriptor. -/
def System.desc (s : System τ) (e : τ × ℕ) : Option Node := ((s.table e.1).fdArray e.2).map File.node

/-- The working directory of a table. -/
def System.cwd (s : System τ) (t : τ) : Option Node := (s.table t).pwd

/-- The references of the kernel itself: `bootfs_node`, and the entries of `vdev_list`. -/
def base (k : Kernel) (n : Node) : ℕ :=
  (if k.bootfs = some n then 1 else 0) +
    match n with
    | .dev devname => if devname ∈ k.vdevList.map VfsDev.devname then 1 else 0
    | .sfs _ => 0

/-- What the tables refer to. -/
structure Placed (k : Kernel) (table : τ → Table) : Prop where
  modes : ∀ t i f, (table t).fdArray i = some f → kind k f.node = .dir → f.readable = true ∧ f.writable = false
  known : ∀ t i f, (table t).fdArray i = some f → Known k f.node
  pwd : ∀ t n, (table t).pwd = some n → kind k n = .dir
  bootfs : k.bootfs = some (.sfs SFS_BLKN_ROOT)
  root : kind k (.sfs SFS_BLKN_ROOT) = .dir
  range : ∀ t i, Proc.FILES_STRUCT_NENTRY ≤ i → (table t).fdArray i = none

/-- The invariant; `leaks` are the references that nobody gives back. -/
structure Ok (s : System τ) (leaks : Node → ℕ) : Prop where
  tidy : Tidy s.inodes.kernel
  placed : Placed s.inodes.kernel s.table
  opens : Counts s.desc s.inodes.openCount
  refs : ∃ cwds, Counts s.cwd cwds ∧ ∀ n, s.inodes.kernel.refCount n =
    s.inodes.openCount n + cwds n + base s.inodes.kernel n + leaks n

/-! ### What is referred to is in memory -/

theorem Ok.desc_pos (h : Ok s leaks) (hf : (s.table t).fdArray i = some f) :
    0 < s.inodes.openCount f.node ∧ 0 < s.inodes.kernel.refCount f.node := by
  have hdesc : s.desc (t, i) = some f.node := congrArg (Option.map File.node) hf
  have hpos := h.opens.pos hdesc
  obtain ⟨cwds, -, hrefs⟩ := h.refs
  have := hrefs f.node
  exact ⟨hpos, by omega⟩

theorem Ok.pwd_pos (h : Ok s leaks) (hn : (s.table t).pwd = some n) : 0 < s.inodes.kernel.refCount n := by
  obtain ⟨cwds, hcwds, hrefs⟩ := h.refs
  have hpos := hcwds.pos (show s.cwd t = some n from hn)
  have := hrefs n
  omega

theorem Ok.boot_pos (h : Ok s leaks) : 0 < s.inodes.kernel.refCount (.sfs SFS_BLKN_ROOT) := by
  obtain ⟨cwds, -, hrefs⟩ := h.refs
  have hroot := hrefs (.sfs SFS_BLKN_ROOT)
  rw [base, if_pos h.placed.bootfs] at hroot
  omega

theorem Ok.lt (h : Ok s leaks) (hf : (s.table t).fdArray i = some f) : i < Proc.FILES_STRUCT_NENTRY := by
  by_contra hge
  rw [h.placed.range t i (not_lt.mp hge)] at hf
  cases hf

/-- The working directory of the process that calls is the one of its table. -/
theorem Ok.current (h : Ok s leaks) (t : τ) : Ok { s with inodes := s.current t } leaks :=
  ⟨⟨h.tidy.nodup, h.tidy.refs, h.tidy.links⟩,
    ⟨h.placed.modes, h.placed.known, h.placed.pwd, h.placed.bootfs, h.placed.root, h.placed.range⟩, h.opens,
    h.refs⟩

theorem known_of_dir (hdir : kind k n = .dir) : Known k n := by
  rintro devname rfl
  cases hdir

/-- The kernel has a reference to each device. -/
theorem base_of_known (hknown : Known k n) (hdev : kind k n = .device) : 1 ≤ base k n := by
  cases n with
  | sfs ino =>
    rw [kind.eq_def] at hdev
    dsimp only at hdev
    split at hdev <;> cases hdev
  | dev devname =>
    rw [base.eq_def]
    dsimp only
    rw [if_pos (hknown devname rfl)]
    exact Nat.le_add_left _ _

theorem Ok.dev_pos (h : Ok s leaks) (hknown : Known s.inodes.kernel n) (hdev : kind s.inodes.kernel n = .device) :
    0 < s.inodes.kernel.refCount n := by
  obtain ⟨cwds, -, hrefs⟩ := h.refs
  have hbase := base_of_known hknown hdev
  rw [hrefs]
  omega

theorem Ok.rooted (h : Ok s leaks) (t : τ) : Rooted (s.current t).kernel := by
  have hboot : ∀ n, s.inodes.kernel.bootfs = some n → n = .sfs SFS_BLKN_ROOT := fun n hn =>
    Option.some.inj (hn.symm.trans h.placed.bootfs)
  refine ⟨(h.current t).tidy, fun n hn => h.pwd_pos hn, fun n hn => ?_, fun n hn => ?_, fun n hn => ?_,
    fun devname hdev => ?_⟩
  · rw [hboot n hn]
    exact h.boot_pos
  · exact known_of_dir (h.placed.pwd t n hn)
  · rw [hboot n hn]
    exact fun _ hdev => by cases hdev
  · refine h.dev_pos (n := .dev devname) (fun d hd => ?_) rfl
    cases hd
    exact hdev

theorem base_kept (h : Kept k k') : base k' = base k := by
  funext n
  rw [base.eq_def, base.eq_def, h.bootfs, h.vdevList]

/-- The inodes that the tables refer to stay what they are. -/
theorem Ok.placed_kept (h : Ok s leaks) (hkept : Kept s.inodes.kernel k') : Placed k' s.table := by
  refine ⟨fun t i f hf hdir => ?_, fun t i f hf => ?_, fun t n hn => ?_, ?_, ?_, h.placed.range⟩
  · rw [hkept.kind (h.desc_pos hf).2] at hdir
    exact h.placed.modes t i f hf hdir
  · rw [Known, hkept.vdevList]
    exact h.placed.known t i f hf
  · rw [hkept.kind (h.pwd_pos hn)]
    exact h.placed.pwd t n hn
  · rw [hkept.bootfs]
    exact h.placed.bootfs
  · rw [hkept.kind h.boot_pos]
    exact h.placed.root

/-! ### Changes of the counts -/

/-- No count has changed. -/
theorem Ok.quiet (h : Ok s leaks) (hq : Quiet s.inodes v) : Ok { s with inodes := v } leaks := by
  obtain ⟨cwds, hcwds, hrefs⟩ := h.refs
  refine ⟨hq.kept.tidy, h.placed_kept hq.kept, ?_, cwds, hcwds, fun n => ?_⟩
  · show Counts s.desc v.openCount
    rw [hq.opens]
    exact h.opens
  · show v.kernel.refCount n = v.openCount n + cwds n + base v.kernel n + leaks n
    rw [hq.refs, hq.opens, base_kept hq.kept]
    exact hrefs n

/-- A reference is taken. -/
theorem Ok.take (h : Ok s leaks) (hkept : Kept s.inodes.kernel v.kernel)
    (hr : v.kernel.refCount = incRef s.inodes.kernel.refCount n)
    (ho : v.openCount = s.inodes.openCount) : Ok { s with inodes := v } (incRef leaks n) := by
  obtain ⟨cwds, hcwds, hrefs⟩ := h.refs
  refine ⟨hkept.tidy, h.placed_kept hkept, ?_, cwds, hcwds, fun p => ?_⟩
  · show Counts s.desc v.openCount
    rw [ho]
    exact h.opens
  · show v.kernel.refCount p = v.openCount p + cwds p + base v.kernel p + incRef leaks n p
    rw [hr, ho, base_kept hkept, incRef_apply, incRef_apply, hrefs p]
    omega

/-- A reference is given back. -/
theorem Ok.give (h : Ok s (incRef leaks n)) (hd : Dropped n s.inodes v)
    (ho : v.openCount = s.inodes.openCount) : Ok { s with inodes := v } leaks := by
  obtain ⟨cwds, hcwds, hrefs⟩ := h.refs
  refine ⟨hd.kept.tidy, h.placed_kept hd.kept, ?_, cwds, hcwds, fun p => ?_⟩
  · show Counts s.desc v.openCount
    rw [ho]
    exact h.opens
  · show v.kernel.refCount p = v.openCount p + cwds p + base v.kernel p + leaks p
    have hp := hrefs p
    rw [incRef_apply] at hp
    rw [hd.refs, ho, base_kept hd.kept, decRef_apply, hp]
    omega

/-! ### Changes of the tables -/

variable [DecidableEq τ]

theorem setFd_fdArray (s : System τ) (t : τ) (i : ℕ) (o : Option (File Node)) (u : τ) (j : ℕ) :
    ((s.setFd t i o).table u).fdArray j = if (u, j) = (t, i) then o else (s.table u).fdArray j := by
  show (update s.table t _ u).fdArray j = _
  by_cases hu : u = t
  · rw [hu, update_self]
    by_cases hj : j = i
    · rw [hj, if_pos rfl]
      exact update_self _ _ _
    · rw [if_neg fun heq => hj (congrArg Prod.snd heq)]
      exact update_of_ne hj _ _
  · rw [update_of_ne hu, if_neg fun heq => hu (congrArg Prod.fst heq)]

theorem setFd_pwd (s : System τ) (t : τ) (i : ℕ) (o : Option (File Node)) (u : τ) :
    ((s.setFd t i o).table u).pwd = (s.table u).pwd := by
  show (update s.table t _ u).pwd = _
  by_cases hu : u = t
  · rw [hu, update_self]
  · rw [update_of_ne hu]

theorem setPwd_pwd (s : System τ) (t : τ) (o : Option Node) (u : τ) :
    ((s.setPwd t o).table u).pwd = if u = t then o else (s.table u).pwd := by
  show (update s.table t _ u).pwd = _
  by_cases hu : u = t
  · rw [hu, update_self, if_pos rfl]
  · rw [update_of_ne hu, if_neg hu]

theorem setPwd_fdArray (s : System τ) (t : τ) (o : Option Node) (u : τ) :
    ((s.setPwd t o).table u).fdArray = (s.table u).fdArray := by
  show (update s.table t _ u).fdArray = _
  by_cases hu : u = t
  · rw [hu, update_self]
  · rw [update_of_ne hu]

theorem desc_setFd (s : System τ) (t : τ) (i : ℕ) (o : Option (File Node)) :
    (s.setFd t i o).desc = update s.desc (t, i) (o.map File.node) := by
  funext e
  rw [System.desc, setFd_fdArray]
  by_cases he : e = (t, i)
  · rw [he, update_self, if_pos rfl]
  · rw [update_of_ne he, if_neg he]
    rfl

theorem cwd_setFd (s : System τ) (t : τ) (i : ℕ) (o : Option (File Node)) :
    (s.setFd t i o).cwd = s.cwd := funext fun _ => setFd_pwd _ _ _ _ _

theorem desc_setPwd (s : System τ) (t : τ) (o : Option Node) : (s.setPwd t o).desc = s.desc := by
  funext e
  rw [System.desc, setPwd_fdArray]
  rfl

theorem cwd_setPwd (s : System τ) (t : τ) (o : Option Node) : (s.setPwd t o).cwd = update s.cwd t o := by
  funext u
  rw [System.cwd, setPwd_pwd]
  by_cases hu : u = t
  · rw [hu, update_self, if_pos rfl]
  · rw [update_of_ne hu, if_neg hu]
    rfl

/-- An entry that allows what its inode allows. -/
theorem Placed.setFd (h : Placed k s.table) (hi : i < Proc.FILES_STRUCT_NENTRY) {o : Option (File Node)}
    (ho : ∀ f, o = some f → kind k f.node = .dir → f.readable = true ∧ f.writable = false)
    (hknown : ∀ f, o = some f → Known k f.node) : Placed k (s.setFd t i o).table := by
  refine ⟨fun u j f hf hdir => ?_, fun u j f hf => ?_, fun u n hn => ?_, h.bootfs, h.root, fun u j hj => ?_⟩
  · rw [setFd_fdArray] at hf
    by_cases he : (u, j) = (t, i)
    · rw [if_pos he] at hf
      exact ho f hf hdir
    · rw [if_neg he] at hf
      exact h.modes u j f hf hdir
  · rw [setFd_fdArray] at hf
    by_cases he : (u, j) = (t, i)
    · rw [if_pos he] at hf
      exact hknown f hf
    · rw [if_neg he] at hf
      exact h.known u j f hf
  · rw [setFd_pwd] at hn
    exact h.pwd u n hn
  · rw [setFd_fdArray, if_neg]
    · exact h.range u j hj
    · intro heq
      have hji : j = i := congrArg Prod.snd heq
      omega

theorem Placed.setPwd (h : Placed k s.table) {o : Option Node} (ho : ∀ n, o = some n → kind k n = .dir) :
    Placed k (s.setPwd t o).table := by
  refine ⟨fun u j f hf hdir => ?_, fun u j f hf => ?_, fun u n hn => ?_, h.bootfs, h.root, fun u j hj => ?_⟩
  · rw [setPwd_fdArray] at hf
    exact h.modes u j f hf hdir
  · rw [setPwd_fdArray] at hf
    exact h.known u j f hf
  · rw [setPwd_pwd] at hn
    by_cases hu : u = t
    · rw [if_pos hu] at hn
      exact ho n hn
    · rw [if_neg hu] at hn
      exact h.pwd u n hn
  · rw [setPwd_fdArray]
    exact h.range u j hj

/-- The position of a descriptor changes. -/
theorem Ok.setPos (h : Ok s leaks) (hf : (s.table t).fdArray i = some f) (pos : ℤ) :
    Ok (s.setFd t i (some { f with pos := pos })) leaks := by
  have hdesc : (s.setFd t i (some { f with pos := pos })).desc = s.desc := by
    rw [desc_setFd]
    exact update_eq_iff.mpr ⟨(congrArg (Option.map File.node) hf).symm, fun _ _ => rfl⟩
  refine ⟨h.tidy, h.placed.setFd (h.lt hf) (fun f' hf' hdir => ?_) fun f' hf' => ?_, ?_, ?_⟩
  · cases hf'
    exact h.placed.modes t i f hf hdir
  · cases hf'
    exact h.placed.known t i f hf
  · rw [hdesc]
    exact h.opens
  · rw [cwd_setFd]
    exact h.refs

/-- A descriptor for an inode with one more reference and one more open. -/
theorem Ok.openFd (h : Ok s leaks) (hi : (s.table t).fdArray i = none) (hlt : i < Proc.FILES_STRUCT_NENTRY)
    (hkept : Kept s.inodes.kernel v.kernel)
    (hr : v.kernel.refCount = incRef s.inodes.kernel.refCount f.node)
    (ho : v.openCount = incRef s.inodes.openCount f.node)
    (hdir : kind v.kernel f.node = .dir → f.readable = true ∧ f.writable = false)
    (hknown : Known s.inodes.kernel f.node) : Ok ({ s with inodes := v }.setFd t i (some f)) leaks := by
  obtain ⟨cwds, hcwds, hrefs⟩ := h.refs
  have hplaced : Placed v.kernel ({ s with inodes := v } : System τ).table := h.placed_kept hkept
  refine ⟨hkept.tidy, hplaced.setFd hlt (fun f' hf' => ?_) fun f' hf' => ?_, ?_, cwds, ?_, fun p => ?_⟩
  · cases hf'
    exact hdir
  · cases hf'
    rw [Known, hkept.vdevList]
    exact hknown
  · rw [desc_setFd]
    show Counts _ v.openCount
    rw [ho]
    exact h.opens.add (congrArg (Option.map File.node) hi)
  · rw [cwd_setFd]
    exact hcwds
  · show v.kernel.refCount p = v.openCount p + cwds p + base v.kernel p + leaks p
    rw [hr, ho, base_kept hkept, incRef_apply, incRef_apply, hrefs p]
    omega

/-- A descriptor is closed. -/
theorem Ok.closeFd (h : Ok s leaks) (hf : (s.table t).fdArray i = some f) (hd : Dropped f.node s.inodes v)
    (ho : v.openCount = decRef s.inodes.openCount f.node) :
    Ok ({ s with inodes := v }.setFd t i none) leaks := by
  obtain ⟨cwds, hcwds, hrefs⟩ := h.refs
  have hplaced : Placed v.kernel ({ s with inodes := v } : System τ).table := h.placed_kept hd.kept
  refine ⟨hd.kept.tidy, hplaced.setFd (h.lt hf) nofun nofun, ?_, cwds, ?_, fun p => ?_⟩
  · rw [desc_setFd]
    show Counts _ v.openCount
    rw [ho]
    exact h.opens.drop (congrArg (Option.map File.node) hf)
  · rw [cwd_setFd]
    exact hcwds
  · show v.kernel.refCount p = v.openCount p + cwds p + base v.kernel p + leaks p
    have hp := hrefs p
    have hpos := (h.desc_pos hf).1
    rw [hd.refs, ho, base_kept hd.kept, decRef_apply, decRef_apply, hp]
    by_cases hpn : p = f.node
    · rw [← hpn] at hpos
      rw [if_pos hpn]
      omega
    · rw [if_neg hpn]
      omega

/-- A reference to a directory is stored as the working directory. -/
theorem Ok.setPwd (h : Ok s (incRef leaks n)) (ht : (s.table t).pwd = none)
    (hdir : kind s.inodes.kernel n = .dir) : Ok (s.setPwd t (some n)) leaks := by
  obtain ⟨cwds, hcwds, hrefs⟩ := h.refs
  refine ⟨h.tidy, h.placed.setPwd fun m hm => ?_, ?_, incRef cwds n, ?_, fun p => ?_⟩
  · cases hm
    exact hdir
  · rw [desc_setPwd]
    exact h.opens
  · rw [cwd_setPwd]
    exact hcwds.add ht
  · show s.inodes.kernel.refCount p = s.inodes.openCount p + incRef cwds n p + base s.inodes.kernel p + leaks p
    have hp := hrefs p
    rw [incRef_apply] at hp ⊢
    omega

/-- The working directory is taken out of its table. -/
theorem Ok.clearPwd (h : Ok s leaks) (hn : (s.table t).pwd = some n) :
    Ok (s.setPwd t none) (incRef leaks n) := by
  obtain ⟨cwds, hcwds, hrefs⟩ := h.refs
  refine ⟨h.tidy, h.placed.setPwd nofun, ?_, decRef cwds n, ?_, fun p => ?_⟩
  · rw [desc_setPwd]
    exact h.opens
  · rw [cwd_setPwd]
    exact hcwds.drop hn
  · show s.inodes.kernel.refCount p =
      s.inodes.openCount p + decRef cwds n p + base s.inodes.kernel p + incRef leaks n p
    have hpos := hcwds.pos (show s.cwd t = some n from hn)
    rw [decRef_apply, incRef_apply, hrefs p]
    by_cases hpn : p = n
    · rw [← hpn] at hpos
      rw [if_pos hpn]
      omega
    · rw [if_neg hpn]
      omega

end Ucore.Filesys
