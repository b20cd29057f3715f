import Ucore.Filesys.Runs

/-!
# Operations that the tables do not have

`__vop_op` asserts that the table of the inode has the operation.  **`missing_exact`** says which calls run
into that, in any state that a run of calls can leave: to read a directory or to seek in it, `fsync` on a
device, to enumerate a file or a device, and two kinds of `O_CREAT`, on a path that leads to nothing and on a
directory.  No other call does: lookups start at directories and devices, which have `lookup`, and no device,
which does not have `reclaim`, ever loses its last reference, as `vdev_list` has one.
-/

namespace Ucore.Filesys

open Sfs Vfs Memory Fallible Function Inodes

variable {τ : Type} [DecidableEq τ] {s₀ s : System τ} {leaks : Node → ℕ} {t₀ t : τ} {i : ℕ}
  {f : File Node} {n : Node} {fd : ℤ} {v : Inodes} {op op' : VopName} {α β : Type}

/-- A part of a call that finds all its operations. -/
def Complete (x : Except Stop α) : Prop := ∀ op, x ≠ .error (.missing op)

theorem complete_ok (a : α) : Complete (.ok a) := fun _ h => by cases h

theorem complete_lift (x : Except Panic α) : Complete (lift x) := by
  intro op h
  cases x with
  | ok a => cases h
  | error p => cases h

theorem lift_eq_ok {x : Except Panic α} {a : α} : lift x = .ok a ↔ x = .ok a := by
  cases x with
  | ok b => exact Iff.rfl.trans ⟨fun h => by cases h; rfl, fun h => by cases h; rfl⟩
  | error p => exact iff_of_false (fun h => by cases h) fun h => by cases h

theorem Complete.bind {x : Except Stop α} {g : α → Except Stop β} (h : Complete x)
    (hg : ∀ a, x = .ok a → Complete (g a)) : Complete (x >>= g) := by
  intro op hop
  rcases bind_eq_error.mp hop with hx | ⟨a, ha, hga⟩
  · exact h op hx
  · exact hg a ha op hga

theorem Complete.ite {c : Prop} [Decidable c] {x y : Except Stop α} (h : c → Complete x)
    (h' : ¬ c → Complete y) : Complete (if c then x else y) := by
  by_cases hc : c
  · rw [if_pos hc]
    exact h hc
  · rw [if_neg hc]
    exact h' hc

theorem Complete.map {x : Except Stop α} {g : α → β} (h : Complete x) : Complete (x.map g) := by
  intro op hop
  cases x with
  | ok a => cases hop
  | error e =>
    cases hop
    exact h op rfl

/-! ### The operations -/

theorem vop_pos (h : op ∈ (kind v.kernel n).ops) : v.vop n op = .ok () := if_pos h

theorem vop_neg (h : op ∉ (kind v.kernel n).ops) : v.vop n op = .error (.missing op) := if_neg h

theorem complete_vop (h : op ∈ (kind v.kernel n).ops) : Complete (v.vop n op) := by
  rw [vop_pos h]
  exact complete_ok ()

/-- Operations that all tables have. -/
theorem mem_ops (k : Kind) (h : op ∈ [.open, .close, .fstat, .gettype]) : op ∈ k.ops := by
  revert op
  cases k <;> decide

theorem kind_sfs (k : Kernel) (ino : ℕ) : kind k (.sfs ino) = .dir ∨ kind k (.sfs ino) = .file := by
  rw [kind.eq_def]
  dsimp only
  by_cases hdir : (k.mount.inode ino).din.type = SFS_TYPE_DIR
  · exact Or.inl (if_pos hdir)
  · exact Or.inr (if_neg hdir)

theorem complete_vopFsync (h : kind v.kernel n ≠ .device) : Complete (v.vopFsync n) := by
  have hmem : VopName.fsync ∈ (kind v.kernel n).ops := by
    revert h
    cases kind v.kernel n <;> decide
  rw [vopFsync.eq_def]
  refine (complete_vop hmem).bind fun _ _ => ?_
  cases n with
  | sfs ino => exact (complete_lift _).bind fun _ _ => complete_ok _
  | dev devname => exact complete_ok _

theorem complete_vopClose (v : Inodes) (n : Node) : Complete (v.vopClose n) := by
  rw [vopClose.eq_def]
  refine (complete_vop (mem_ops _ (by decide))).bind fun _ _ => ?_
  cases n with
  | sfs ino =>
    refine complete_vopFsync fun hdev => ?_
    rcases kind_sfs v.kernel ino with h | h
    · rw [h] at hdev
      cases hdev
    · rw [h] at hdev
      cases hdev
  | dev devname => exact complete_ok _

/-- If it is a device, this is not the last reference to it. -/
def Lasts (k : Kernel) (n : Node) : Prop := ∀ devname, n = .dev devname → k.refCount n ≠ 1

theorem lasts_of_dir {k : Kernel} (hdir : kind k n = .dir) (k' : Kernel) : Lasts k' n := by
  rintro devname rfl
  cases hdir

/-- An inode that has been found is a device to which the kernel has a reference besides, or none. -/
theorem Found.lasts {k k' : Kernel} (hrooted : Rooted k) (hfound : Found k (.ok n) k') (hknown : Known k n) :
    Lasts k' n := by
  cases hfound with
  | found hkept hrefs =>
    intro devname hdev
    have hpos := hrooted.devices devname (hknown devname hdev)
    rw [← hdev] at hpos
    rw [hrefs, incRef_self]
    omega

/-- No inode is reclaimed that cannot be. -/
theorem refDec_eq (h : Lasts v.kernel n) :
    v.refDec n = (lift (v.kernel.refDec n)).map fun k => { v with kernel := k } := by
  have hreclaim : (if v.kernel.refCount n = 1 then v.vop n .reclaim else .ok ()) = .ok () := by
    split
    case isFalse => rfl
    case isTrue hlast =>
      cases n with
      | dev devname => exact absurd hlast (h devname rfl)
      | sfs ino =>
        refine vop_pos ?_
        rcases kind_sfs v.kernel ino with hkind | hkind
        · rw [hkind]
          decide
        · rw [hkind]
          decide
  rw [Inodes.refDec, hreclaim, bind_ok]
  cases lift (v.kernel.refDec n) with
  | ok k => rfl
  | error e => rfl

theorem complete_refDec (h : Lasts v.kernel n) : Complete (v.refDec n) := by
  rw [refDec_eq h]
  exact (complete_lift _).map

theorem complete_openDec (v : Inodes) (n : Node) : Complete (v.openDec n) := by
  rw [openDec]
  exact (complete_lift _).bind fun _ _ => .ite (fun _ => complete_vopClose _ _) fun _ => complete_ok _

theorem complete_vfsClose (h : Tidy v.kernel) (hlasts : Lasts v.kernel n) : Complete (v.vfsClose n) := by
  rw [vfsClose]
  refine (complete_openDec _ _).bind fun v' hv' => complete_refDec fun devname hdev => ?_
  obtain ⟨-, hsame, -⟩ := openDec_spec h n v' hv'
  rw [hsame.refs]
  exact hlasts devname hdev

theorem exists_vopFstat (v : Inodes) (n : Node) : ∃ size, v.vopFstat n = .ok size := by
  rw [vopFstat.eq_def, vop_pos (mem_ops _ (by decide)), bind_ok, vop_pos (mem_ops _ (by decide)), bind_ok]
  cases n with
  | sfs ino => exact ⟨_, rfl⟩
  | dev devname => exact ⟨_, rfl⟩

theorem complete_vopFstat (v : Inodes) (n : Node) : Complete (v.vopFstat n) := by
  obtain ⟨size, hsize⟩ := exists_vopFstat v n
  rw [hsize]
  exact complete_ok size

theorem complete_vopOpen (v : Inodes) (n : Node) (flags : BitVec 32) : Complete (v.vopOpen n flags) := by
  rw [vopOpen.eq_def]
  refine (complete_vop (mem_ops _ (by decide))).bind fun _ _ => ?_
  cases n with
  | sfs ino => exact complete_ok _
  | dev devname => exact complete_ok _

/-- A program that only asks its table for `op`. -/
theorem vop_bind_missing {g : Unit → Except Stop α} (hg : Complete (g ())) :
    (v.vop n op >>= g) = .error (.missing op') ↔ op' = op ∧ op ∉ (kind v.kernel n).ops := by
  by_cases hmem : op ∈ (kind v.kernel n).ops
  · rw [vop_pos hmem, bind_ok]
    exact iff_of_false (hg op') fun h => h.2 hmem
  · rw [vop_neg hmem, bind_error]
    constructor
    · intro h
      cases h
      exact ⟨rfl, hmem⟩
    · rintro ⟨rfl, -⟩
      rfl

theorem vopTruncate_missing {len : ℤ} : v.vopTruncate n len = .error (.missing op) ↔
    op = .truncate ∧ .truncate ∉ (kind v.kernel n).ops := by
  rw [vopTruncate.eq_def]
  refine vop_bind_missing ?_
  cases n with
  | sfs ino => exact (complete_lift _).bind fun _ _ => complete_ok _
  | dev devname => exact complete_ok _

theorem vopTryseek_missing {pos : ℤ} : v.vopTryseek n pos = .error (.missing op) ↔
    op = .tryseek ∧ .tryseek ∉ (kind v.kernel n).ops := by
  rw [vopTryseek.eq_def]
  refine vop_bind_missing ?_
  cases n with
  | sfs ino => exact (complete_lift _).bind fun _ _ => complete_ok _
  | dev devname => exact complete_ok _

theorem vopFsync_missing : v.vopFsync n = .error (.missing op) ↔
    op = .fsync ∧ .fsync ∉ (kind v.kernel n).ops := by
  rw [vopFsync.eq_def]
  refine vop_bind_missing ?_
  cases n with
  | sfs ino => exact (complete_lift _).bind fun _ _ => complete_ok _
  | dev devname => exact complete_ok _

theorem vopGetdirentry_missing {d : Dirent} {entry : Option Mem} :
    v.vopGetdirentry n d entry = .error (.missing op) ↔
      op = .getdirentry ∧ .getdirentry ∉ (kind v.kernel n).ops := by
  rw [vopGetdirentry.eq_def]
  refine vop_bind_missing ?_
  cases n with
  | sfs ino => exact (complete_lift _).bind fun _ _ => complete_ok _
  | dev devname => exact complete_ok _

theorem vopIo_missing {base : Mem} {pos : ℤ} {len : UInt64} {write : Bool} {drv : Driver} :
    v.vopIo n base pos len write drv = .error (.missing op) ↔
      op = (if write then .write else .read) ∧ (if write then .write else .read) ∉ (kind v.kernel n).ops := by
  rw [vopIo.eq_def]
  refine vop_bind_missing ?_
  cases n with
  | sfs ino => exact (complete_lift _).bind fun _ _ => complete_ok _
  | dev devname => exact complete_ok _

/-! ### Where lookups start -/

omit [DecidableEq τ] in
/-- A lookup starts at a directory or a device, both of which have the operation. -/
theorem Ok.getDevice_lookup (h : Ok s leaks) (t : τ) (a : Alloc) (path : List UInt8) :
    Yields ((s.current t).kernel.getDevice a path) fun x =>
      ∀ sub n, x.1 = .ok (sub, n) → .lookup ∈ (kind x.2 n).ops := by
  refine ((getDevice_isStart a path).and (getDevice_found (h.rooted t) a path)).mono fun x hx sub n hn => ?_
  obtain ⟨hstart, hfound⟩ := hx
  have hdir : 0 < (s.current t).kernel.refCount n → kind (s.current t).kernel n = .dir →
      .lookup ∈ (kind x.2 n).ops := by
    intro hpos hkind
    rw [hfound.kept.kind hpos, hkind]
    decide
  rcases hstart sub n hn with hpwd | hboot | rfl | ⟨vdev, -, rfl⟩
  · exact hdir (h.pwd_pos hpwd) (h.placed.pwd t n hpwd)
  · have heq : some (Node.sfs SFS_BLKN_ROOT) = some n := h.placed.bootfs.symm.trans hboot
    cases heq
    exact hdir h.boot_pos h.placed.root
  · exact hdir h.boot_pos h.placed.root
  · have hdev : kind x.2 (.dev vdev.devname) = .device := rfl
    rw [hdev]
    decide

/-- A lookup that runs into nothing, and what it finds does not go with its reference. -/
structure Searches (v : Inodes) (a b : Alloc) (path : List UInt8) : Prop where
  eq : v.vfsLookup a b path = (lift (v.kernel.vfsLookup a b path)).map fun x => (x.1, { v with kernel := x.2 })
  lasts : ∀ n k, v.kernel.vfsLookup a b path = .ok (.ok n, k) → Lasts k n

theorem Searches.ok {a b : Alloc} {path : List UInt8} (h : Searches v a b path) {r : Ret Node} {k : Kernel}
    (hlook : v.kernel.vfsLookup a b path = .ok (r, k)) :
    v.vfsLookup a b path = .ok (r, { v with kernel := k }) := by
  rw [h.eq, lift_eq_ok.mpr hlook]
  rfl

omit [DecidableEq τ] in
/-- **`vfs_lookup`** finds all its operations, and `vop_reclaim` is not asked of a device. -/
theorem Ok.searches (h : Ok s leaks) (t : τ) (a b : Alloc) (path : List UInt8) :
    Searches (s.current t) a b path := by
  have hrooted := h.rooted t
  refine ⟨?_, fun n k hlook => (vfsLookup_found hrooted a b path _ hlook).lasts hrooted
    (vfsLookup_known hrooted a b path _ hlook n rfl)⟩
  rw [Inodes.vfsLookup, Kernel.vfsLookup]
  cases hstart : (s.current t).kernel.getDevice a path with
  | error p => rfl
  | ok x =>
    obtain ⟨r, k⟩ := x
    cases r with
    | error ret => rfl
    | ok start =>
      obtain ⟨sub, node⟩ := start
      have hlookup := h.getDevice_lookup t a path _ hstart sub node rfl
      have hlasts : Lasts k node := Found.lasts hrooted (getDevice_found hrooted a path _ hstart)
        ((getDevice_isStart a path _ hstart sub node rfl).known hrooted)
      by_cases hsub : sub = []
      · rw [hsub]
        rfl
      · show (if sub ≠ [] then _ else _) = (lift (if sub ≠ [] then _ else _)).map _
        rw [if_pos hsub, if_pos hsub, vop_pos hlookup, bind_ok]
        cases hop : k.vopLookup b node sub with
        | error p => rfl
        | ok y =>
          obtain ⟨r, k'⟩ := y
          have hlasts' : Lasts k' node := by
            rintro devname rfl
            rw [Kernel.vopLookup, if_pos hsub] at hop
            cases hop
            exact hlasts devname rfl
          show (Inodes.refDec { s.current t with kernel := k' } node >>= fun s => .ok (r, s)) =
            (lift (k'.refDec node >>= fun k => .ok (r, k))).map _
          rw [refDec_eq hlasts']
          show ((lift (k'.refDec node)).map _ >>= _) = _
          cases k'.refDec node with
          | error p => rfl
          | ok k'' => rfl

/-! ### Opening -/

/-- How `vfs_open` runs into a missing operation: `O_CREAT` on a path that leads to nothing, although its
start is there, and `O_CREAT` on a directory. -/
inductive OpenMissing (v : Inodes) (a b c : Alloc) (path : List UInt8) (flags : BitVec 32) : VopName → Prop
  | create {k k' : Kernel} {sub : List UInt8} {dir : Node} {canWrite : Bool}
      (hmode : accessMode flags = some canWrite)
      (htrunc : testFlag flags O_TRUNC = true → canWrite = true) (hcreat : testFlag flags O_CREAT = true)
      (hlook : v.kernel.vfsLookup a b path = .ok (.error (-E_NOENT), k))
      (hparent : k.getDevice c (parentPath path) = .ok (.ok (sub, dir), k')) :
      OpenMissing v a b c path flags .create
  | truncate {k : Kernel} {n : Node} (hmode : flags &&& O_ACCMODE = O_RDONLY)
      (hcreat : testFlag flags O_CREAT = true) (hexcl : testFlag flags O_EXCL = false)
      (htrunc : testFlag flags O_TRUNC = false) (happend : testFlag flags O_APPEND = false)
      (hlook : v.kernel.vfsLookup a b path = .ok (.ok n, k)) (hdir : kind k n = .dir) :
      OpenMissing v a b c path flags .truncate

/-- A directory can be opened for reading, without `O_APPEND`. -/
theorem vopOpen_dir_iff {flags : BitVec 32} (hdir : kind v.kernel n = .dir) : v.vopOpen n flags = .ok 0 ↔
    flags &&& O_ACCMODE = O_RDONLY ∧ testFlag flags O_APPEND = false := by
  rw [vopOpen.eq_def, vop_pos (mem_ops _ (by decide)), bind_ok]
  cases n with
  | dev devname => cases hdir
  | sfs ino =>
    dsimp only
    rw [if_pos hdir, sfsOpendir]
    by_cases hmode : flags &&& O_ACCMODE = O_RDONLY
    · rw [if_neg (not_not.mpr hmode), and_iff_right hmode]
      by_cases happend : testFlag flags O_APPEND = true
      · rw [if_pos happend, happend]
        exact iff_of_false (fun h => absurd (Except.ok.inj h) (by decide)) (by decide)
      · rw [if_neg happend]
        exact iff_of_true rfl (Bool.eq_false_of_not_eq_true happend)
    · rw [if_pos hmode]
      exact iff_of_false (fun h => absurd (Except.ok.inj h) (by decide)) fun h => hmode h.1

theorem testFlag_or {flags p q : BitVec 32} (h : testFlag flags p = true ∨ testFlag flags q = true) :
    testFlag flags (p ||| q) = true := by
  rw [testFlag, bne_iff_ne, ne_eq] at *
  rw [testFlag, bne_iff_ne, ne_eq] at h
  intro hzero
  rw [BitVec.and_or_distrib_left] at hzero
  obtain ⟨hp, hq⟩ := BitVec.or_eq_zero_iff.mp hzero
  exact h.elim (fun hne => hne hp) fun hne => hne hq

/-- `vop_open` of a device fails with `O_CREAT` or `O_TRUNC`. -/
theorem vopOpen_device {flags : BitVec 32} (hdev : kind v.kernel n = .device)
    (hflag : testFlag flags O_TRUNC = true ∨ testFlag flags O_CREAT = true) : v.vopOpen n flags ≠ .ok 0 := by
  rw [vopOpen.eq_def, vop_pos (mem_ops _ (by decide)), bind_ok]
  cases n with
  | sfs ino =>
    rcases kind_sfs v.kernel ino with h | h
    · rw [h] at hdev
      cases hdev
    · rw [h] at hdev
      cases hdev
  | dev devname =>
    dsimp only
    rw [devOpen, if_pos (testFlag_or (Or.inl (testFlag_or (Or.inl (testFlag_or hflag.symm)))))]
    exact fun h => absurd (Except.ok.inj h) (by decide)

/-- An inode that has been opened and has no `truncate` is a directory, opened to read. -/
theorem dir_of_vopOpen {flags : BitVec 32} {canWrite : Bool} (hmode : accessMode flags = some canWrite)
    (htrunc : ¬ (testFlag flags O_TRUNC = true ∧ canWrite = false)) (hopen : v.vopOpen n flags = .ok 0)
    (hflag : testFlag flags O_TRUNC = true ∨ testFlag flags O_CREAT = true)
    (hmem : .truncate ∉ (kind v.kernel n).ops) :
    kind v.kernel n = .dir ∧ flags &&& O_ACCMODE = O_RDONLY ∧ testFlag flags O_TRUNC = false ∧
      testFlag flags O_APPEND = false := by
  cases hkind : kind v.kernel n with
  | file => exact absurd (by rw [hkind]; decide) hmem
  | device => exact absurd hopen (vopOpen_device hkind hflag)
  | dir =>
    obtain ⟨hread, happend⟩ := (vopOpen_dir_iff hkind).mp hopen
    rw [(accessMode_rdonly hread).2] at hmode
    cases hmode
    exact ⟨rfl, hread, Bool.eq_false_of_not_eq_true fun ht => htrunc ⟨ht, rfl⟩, happend⟩

/-- Nothing has been cut from a device. -/
theorem vopTruncate_dev {len : ℤ} {devname : List UInt8} {x : ℤ × Inodes} :
    v.vopTruncate (.dev devname) len ≠ .ok x := by
  intro h
  rw [vopTruncate.eq_def, vop_neg (show .truncate ∉ Kind.device.ops by decide), bind_error] at h
  cases h

theorem OpenMissing.of_error {a b c : Alloc} {path : List UInt8} {flags : BitVec 32}
    (hs : Searches v a b path) (h : v.vfsOpen a b c path flags = .error (.missing op)) :
    OpenMissing v a b c path flags op := by
  rw [vfsOpen] at h
  cases hmode : accessMode flags with
  | none =>
    rw [hmode] at h
    cases h
  | some canWrite =>
    rw [hmode] at h
    dsimp only at h
    by_cases htrunc : testFlag flags O_TRUNC = true ∧ canWrite = false
    · rw [if_pos htrunc] at h
      cases h
    have hwrite : testFlag flags O_TRUNC = true → canWrite = true := fun ht =>
      Bool.eq_true_of_not_eq_false fun hw => htrunc ⟨ht, hw⟩
    rw [if_neg htrunc] at h
    rcases bind_eq_error.mp h with hx | ⟨x, hx, h⟩
    · rw [hs.eq] at hx
      exact absurd hx ((complete_lift _).map op)
    rw [hs.eq] at hx
    obtain ⟨⟨r, k⟩, hlook, rfl⟩ := map_eq_ok.mp hx
    rw [lift_eq_ok] at hlook
    cases r with
    | error ret =>
      dsimp only at h
      by_cases hnew : ret = -E_NOENT ∧ testFlag flags O_CREAT = true
      · rw [if_pos hnew] at h
        rcases bind_eq_error.mp h with hx | ⟨⟨r', k'⟩, hparent, h⟩
        · exact absurd hx (complete_lift _ op)
        rw [lift_eq_ok] at hparent
        cases r' with
        | error ret' => cases h
        | ok start =>
          have hvop : (Inodes.vop { v with kernel := k' } start.2 .create >>= fun _ =>
              .ok (.error ret, ({ v with kernel := k' } : Inodes))) =
                (.error (.missing op) : Except Stop (Ret Node × Inodes)) := h
          obtain ⟨rfl, -⟩ := (vop_bind_missing fun _ hok => by cases hok).mp hvop
          rw [hnew.1] at hlook
          exact .create hmode hwrite hnew.2 hlook hparent
      · rw [if_neg hnew] at h
        cases h
    | ok n =>
      dsimp only at h
      by_cases hexcl : testFlag flags O_EXCL = true ∧ testFlag flags O_CREAT = true
      · rw [if_pos hexcl] at h
        cases h
      rw [if_neg hexcl] at h
      rcases bind_eq_error.mp h with hx | ⟨ret, hopen, h⟩
      · exact absurd hx (complete_vopOpen _ _ _ op)
      by_cases hret : ret ≠ 0
      · rw [if_pos hret] at h
        exact absurd h (((complete_refDec (hs.lasts n k hlook)).bind fun _ _ => complete_ok _) op)
      rw [if_neg hret] at h
      rw [not_not.mp hret] at hopen
      by_cases hflag : testFlag flags O_TRUNC = true ∨ testFlag flags O_CREAT = true
      · rw [if_pos hflag] at h
        rcases bind_eq_error.mp h with hx | ⟨y, hy, h⟩
        · obtain ⟨rfl, hmem⟩ := vopTruncate_missing.mp hx
          obtain ⟨hdir, hread, htrunc', happend⟩ := dir_of_vopOpen hmode htrunc hopen hflag hmem
          have hcreat : testFlag flags O_CREAT = true := hflag.resolve_left (by rw [htrunc']; decide)
          exact .truncate hread hcreat (Bool.eq_false_of_not_eq_true fun he => hexcl ⟨he, hcreat⟩) htrunc'
            happend hlook hdir
        · refine absurd h (Complete.ite (fun _ => ?_) (fun _ => complete_ok _) op)
          refine (complete_openDec _ _).bind fun _ _ => (complete_refDec ?_).bind fun _ _ => complete_ok _
          rintro devname rfl
          exact absurd hy vopTruncate_dev
      · rw [if_neg hflag] at h
        cases h

theorem OpenMissing.error {a b c : Alloc} {path : List UInt8} {flags : BitVec 32} (hs : Searches v a b path)
    (h : OpenMissing v a b c path flags op) : v.vfsOpen a b c path flags = .error (.missing op) := by
  cases h with
  | @create k k' sub dir canWrite hmode htrunc hcreat hlook hparent =>
    have hdir : VopName.create ∉ (kind k' dir).ops := by cases kind k' dir <;> decide
    rw [vfsOpen, hmode]
    dsimp only
    rw [if_neg fun h => absurd (htrunc h.1) (by rw [h.2]; decide), hs.ok hlook, bind_ok]
    dsimp only
    rw [if_pos ⟨rfl, hcreat⟩, lift_eq_ok.mpr hparent, bind_ok]
    refine (vop_bind_missing ?_).mpr ⟨rfl, hdir⟩
    exact complete_ok _
  | @truncate k n hmode hcreat hexcl htrunc happend hlook hdir =>
    have hopen : Inodes.vopOpen { v with kernel := k } n flags = .ok 0 :=
      (vopOpen_dir_iff hdir).mpr ⟨hmode, happend⟩
    have hmem : VopName.truncate ∉ (kind k n).ops := by rw [hdir]; decide
    rw [vfsOpen, (accessMode_rdonly hmode).2]
    dsimp only
    rw [if_neg fun h => absurd h.1 (by rw [htrunc]; decide), hs.ok hlook, bind_ok]
    dsimp only
    rw [if_neg fun h => absurd h.1 (by rw [hexcl]; decide), hopen, bind_ok, if_neg (not_not.mpr rfl),
      if_pos (Or.inr hcreat)]
    rw [vopTruncate_missing.mpr ⟨rfl, hmem⟩, bind_error]

theorem vfsOpen_missing {a b c : Alloc} {path : List UInt8} {flags : BitVec 32} (hs : Searches v a b path) :
    v.vfsOpen a b c path flags = .error (.missing op) ↔ OpenMissing v a b c path flags op :=
  ⟨.of_error hs, OpenMissing.error hs⟩

/-! ### Calls -/

/-- How a call runs into a missing operation. -/
inductive Call.Missing (s : System τ) (t : τ) : Call τ → VopName → Prop
  | open {a b c : Alloc} {path : List UInt8} {flags : BitVec 32} {i : ℕ} {op : VopName}
      (hi : (s.table t).fdArrayAlloc Fd.NO_FD = .ok i)
      (h : OpenMissing (s.current t) a b c path flags op) : Missing s t (.open a b c path flags) op
  | read {fd : ℤ} {base : Mem} {len : UInt64} {drv : Driver} {i : ℕ} {f : File Node}
      (hfd : (s.table t).fd2file fd = some (i, f)) (hdir : kind s.inodes.kernel f.node = .dir) :
      Missing s t (.read fd base len drv) .read
  | seek {fd pos : ℤ} {whence i : ℕ} {f : File Node} (hfd : (s.table t).fd2file fd = some (i, f))
      (hdir : kind s.inodes.kernel f.node = .dir) (hwhence : whence ≤ 2) :
      Missing s t (.seek fd pos whence) .tryseek
  | fsync {fd : ℤ} {i : ℕ} {f : File Node} (hfd : (s.table t).fd2file fd = some (i, f))
      (hdev : kind s.inodes.kernel f.node = .device) : Missing s t (.fsync fd) .fsync
  | getdirentry {fd : ℤ} {d : Dirent} {entry : Option Mem} {i : ℕ} {f : File Node}
      (hfd : (s.table t).fd2file fd = some (i, f)) (hdir : kind s.inodes.kernel f.node ≠ .dir) :
      Missing s t (.getdirentry fd d entry) .getdirentry

theorem map_missing {x : Except Stop α} {g : α → β} :
    x.map g = .error (.missing op) ↔ x = .error (.missing op) := by
  cases x with
  | ok a => exact iff_of_false (fun h => by cases h) fun h => by cases h
  | error e =>
    show (Except.error e : Except Stop β) = _ ↔ _
    rw [Except.error.injEq, Except.error.injEq]

/-- The first part of a program runs into it, as the rest does not. -/
theorem bind_missing_iff {x : Except Stop α} {g : α → Except Stop β} (hg : ∀ a, Complete (g a)) :
    (x >>= g) = .error (.missing op) ↔ x = .error (.missing op) := by
  rw [bind_eq_error]
  exact ⟨fun h => h.elim id fun ⟨a, _, hga⟩ => absurd hga (hg a op), Or.inl⟩

variable {a b c : Alloc} {path : List UInt8} {flags : BitVec 32} {base : Mem} {len : UInt64} {drv : Driver}

theorem fileOpen_missing (hok : Ok s leaks) : s.fileOpen t a b c path flags = .error (.missing op) ↔
    Call.Missing s t (.open a b c path flags) op := by
  have hsearches := hok.searches t a b path
  constructor
  · intro h
    rw [System.fileOpen] at h
    cases hmode : accessMode flags with
    | none =>
      rw [hmode] at h
      cases h
    | some canWrite =>
      rw [hmode] at h
      dsimp only at h
      cases hi : (s.table t).fdArrayAlloc Fd.NO_FD with
      | error ret =>
        rw [hi] at h
        cases h
      | ok i =>
        rw [hi] at h
        dsimp only at h
        rcases bind_eq_error.mp h with hopen | ⟨⟨r, inodes⟩, -, h⟩
        · exact .open hi ((vfsOpen_missing hsearches).mp hopen)
        · cases r with
          | error ret => cases h
          | ok n =>
            refine absurd h (Complete.bind ?_ (fun _ _ => complete_ok _) op)
            exact .ite (fun _ => (complete_vopFstat _ _).map) fun _ => complete_ok _
  · intro h
    cases h with
    | @«open» _ _ _ _ _ i _ hi h =>
      have hmode : ∃ canWrite, accessMode flags = some canWrite := by
        cases h with
        | create hmode => exact ⟨_, hmode⟩
        | truncate hmode => exact ⟨_, (accessMode_rdonly hmode).2⟩
      obtain ⟨canWrite, hmode⟩ := hmode
      rw [System.fileOpen, hmode, hi]
      dsimp only
      rw [(vfsOpen_missing hsearches).mpr h, bind_error]

/-- Only directories cannot be read, and only their descriptors cannot be written. -/
theorem fileRead_missing (h : Ok s leaks) : s.fileIo t fd base len false drv = .error (.missing op) ↔
    Call.Missing s t (.read fd base len drv) op := by
  rw [System.fileIo]
  cases hfd : (s.table t).fd2file fd with
  | none =>
    refine iff_of_false (complete_ok _ op) fun hm => ?_
    cases hm with
    | read hfd' => exact absurd (hfd.symm.trans hfd') (by simp)
  | some p =>
    obtain ⟨i, f⟩ := p
    have hread : kind s.inodes.kernel f.node = .dir → f.readable = true := fun hdir =>
      (h.placed.modes t i f (Ok.fd2file hfd) hdir).1
    simp only [Bool.false_eq_true, ↓reduceIte]
    constructor
    · intro hm
      by_cases hr : f.readable = false
      · rw [if_pos hr] at hm
        cases hm
      · rw [if_neg hr] at hm
        obtain ⟨rfl, hmem⟩ := vopIo_missing.mp ((bind_missing_iff fun _ => complete_ok _).mp hm)
        refine .read hfd ?_
        cases hkind : kind s.inodes.kernel f.node with
        | dir => rfl
        | file => exact absurd (by rw [hkind]; decide) hmem
        | device => exact absurd (by rw [hkind]; decide) hmem
    · intro hm
      cases hm with
      | @read _ _ _ _ i' f' hfd' hdir =>
        cases hfd.symm.trans hfd'
        rw [if_neg (by rw [hread hdir]; decide)]
        refine (bind_missing_iff fun _ => complete_ok _).mpr (vopIo_missing.mpr ⟨rfl, ?_⟩)
        rw [hdir]
        decide

theorem complete_fileWrite (h : Ok s leaks) : Complete (s.fileIo t fd base len true drv) := by
  rw [System.fileIo]
  cases hfd : (s.table t).fd2file fd with
  | none => exact complete_ok _
  | some p =>
    refine .ite (fun _ => complete_ok _) fun hw op hm => ?_
    obtain ⟨-, hmem⟩ := vopIo_missing.mp ((bind_missing_iff fun _ => complete_ok _).mp hm)
    cases hkind : kind s.inodes.kernel p.2.node with
    | dir => exact hw (h.placed.modes t p.1 p.2 (Ok.fd2file hfd) hkind).2
    | file => exact absurd (by rw [hkind]; decide) hmem
    | device => exact absurd (by rw [hkind]; decide) hmem

theorem seekTarget_isSome (pos filePos : ℤ) (whence size : ℕ) :
    (seekTarget pos whence filePos size).isSome ↔ whence ≤ 2 := by
  match whence with
  | 0 | 1 | 2 => exact iff_of_true rfl (by decide)
  | w + 3 => exact iff_of_false (fun h => by cases h) (by omega)

theorem fileSeek_missing {pos : ℤ} {whence : ℕ} : s.fileSeek t fd pos whence = .error (.missing op) ↔
    Call.Missing s t (.seek fd pos whence) op := by
  rw [System.fileSeek]
  cases hfd : (s.table t).fd2file fd with
  | none =>
    refine iff_of_false (complete_ok _ op) fun hm => ?_
    cases hm with
    | seek hfd' => exact absurd (hfd.symm.trans hfd') (by simp)
  | some p =>
    obtain ⟨i, f⟩ := p
    have hstat : ∃ size, (if whence = 2 then s.inodes.vopFstat f.node else .ok 0) = .ok size := by
      by_cases hend : whence = 2
      · rw [if_pos hend]
        exact exists_vopFstat _ _
      · rw [if_neg hend]
        exact ⟨0, rfl⟩
    obtain ⟨size, hsize⟩ := hstat
    have hsome := seekTarget_isSome pos f.pos whence size
    dsimp only
    rw [hsize, bind_ok]
    cases htarget : seekTarget pos whence f.pos size with
    | none =>
      rw [htarget] at hsome
      refine iff_of_false (complete_ok _ op) fun hm => ?_
      cases hm with
      | seek _ _ hwhence => exact absurd (hsome.mpr hwhence) (by decide)
    | some target =>
      rw [htarget] at hsome
      dsimp only
      rw [bind_missing_iff fun _ => complete_ok _, vopTryseek_missing]
      constructor
      · rintro ⟨rfl, hmem⟩
        refine .seek hfd ?_ (hsome.mp rfl)
        cases hkind : kind s.inodes.kernel f.node with
        | dir => rfl
        | file => exact absurd (by rw [hkind]; decide) hmem
        | device => exact absurd (by rw [hkind]; decide) hmem
      · intro hm
        cases hm with
        | seek hfd' hdir =>
          cases hfd.symm.trans hfd'
          rw [hdir]
          exact ⟨rfl, by decide⟩

omit [DecidableEq τ] in
theorem fileFsync_missing : s.fileFsync t fd = .error (.missing op) ↔
    Call.Missing s t (.fsync fd) op := by
  rw [System.fileFsync]
  cases hfd : (s.table t).fd2file fd with
  | none =>
    refine iff_of_false (complete_ok _ op) fun hm => ?_
    cases hm with
    | fsync hfd' => exact absurd (hfd.symm.trans hfd') (by simp)
  | some p =>
    obtain ⟨i, f⟩ := p
    dsimp only
    rw [bind_missing_iff fun _ => complete_ok _, vopFsync_missing]
    constructor
    · rintro ⟨rfl, hmem⟩
      refine .fsync hfd ?_
      cases hkind : kind s.inodes.kernel f.node with
      | device => rfl
      | dir => exact absurd (by rw [hkind]; decide) hmem
      | file => exact absurd (by rw [hkind]; decide) hmem
    · intro hm
      cases hm with
      | fsync hfd' hdev =>
        cases hfd.symm.trans hfd'
        rw [hdev]
        exact ⟨rfl, by decide⟩

omit [DecidableEq τ] in
theorem fileGetdirentry_missing {d : Dirent} {entry : Option Mem} :
    s.fileGetdirentry t fd d entry = .error (.missing op) ↔
      Call.Missing s t (.getdirentry fd d entry) op := by
  rw [System.fileGetdirentry]
  cases hfd : (s.table t).fd2file fd with
  | none =>
    refine iff_of_false (complete_ok _ op) fun hm => ?_
    cases hm with
    | getdirentry hfd' => exact absurd (hfd.symm.trans hfd') (by simp)
  | some p =>
    obtain ⟨i, f⟩ := p
    dsimp only
    rw [bind_missing_iff fun _ => complete_ok _, vopGetdirentry_missing]
    constructor
    · rintro ⟨rfl, hmem⟩
      refine .getdirentry hfd fun hdir => hmem ?_
      rw [hdir]
      decide
    · intro hm
      cases hm with
      | getdirentry hfd' hdir =>
        cases hfd.symm.trans hfd'
        refine ⟨rfl, ?_⟩
        cases hkind : kind s.inodes.kernel f.node with
        | dir => exact absurd hkind hdir
        | file => decide
        | device => decide

/-! ### The other calls -/

omit [DecidableEq τ] in
/-- A device that is open has a reference besides the one of its descriptor. -/
theorem Ok.desc_lasts (h : Ok s leaks) (hf : (s.table t).fdArray i = some f) :
    Lasts s.inodes.kernel f.node := by
  intro devname hdev
  have hopen := (h.desc_pos hf).1
  have hbase := base_of_known (h.placed.known t i f hf) (by rw [hdev]; rfl)
  obtain ⟨cwds, -, hrefs⟩ := h.refs
  rw [hrefs]
  omega

theorem complete_fdArrayClose (h : Ok s leaks) (hf : (s.table t).fdArray i = some f) :
    Complete (s.fdArrayClose t i f.node) := by
  rw [System.fdArrayClose]
  exact (complete_vfsClose h.tidy (h.desc_lasts hf)).bind fun _ _ => complete_ok _

theorem complete_fileClose (h : Ok s leaks) (t : τ) (fd : ℤ) : Complete (s.fileClose t fd) := by
  rw [System.fileClose]
  cases hfd : (s.table t).fd2file fd with
  | none => exact complete_ok _
  | some p => exact (complete_fdArrayClose h (Ok.fd2file hfd)).bind fun _ _ => complete_ok _

omit [DecidableEq τ] in
theorem complete_fileFstat (s : System τ) (t : τ) (fd : ℤ) : Complete (s.fileFstat t fd) := by
  rw [System.fileFstat]
  cases (s.table t).fd2file fd with
  | none => exact complete_ok _
  | some p => exact (complete_vopFstat _ _).bind fun _ _ => complete_ok _

omit [DecidableEq τ] in
theorem complete_systemRefDec (h : Lasts s.inodes.kernel n) : Complete (s.refDec n) := by
  rw [System.refDec]
  exact (complete_refDec h).bind fun _ _ => complete_ok _

theorem complete_vfsSetCurdir (hpwd : ∀ m, (s.table t).pwd = some m → kind s.inodes.kernel m = .dir) :
    Complete (s.vfsSetCurdir t n) := by
  rw [System.vfsSetCurdir]
  refine .ite (fun _ => complete_ok _) fun _ => (complete_vop (mem_ops _ (by decide))).bind fun _ _ =>
    .ite (fun _ => complete_ok _) fun _ => ?_
  cases hold : (s.table t).pwd with
  | none => exact complete_ok _
  | some m => exact (complete_systemRefDec (lasts_of_dir (hpwd m hold) _)).bind fun _ _ => complete_ok _

/-- A device does not become the working directory. -/
theorem vfsSetCurdir_dev (s : System τ) (t : τ) (devname : List UInt8) :
    Yields (s.vfsSetCurdir t (.dev devname)) fun x => x.2 = s := by
  rw [System.vfsSetCurdir]
  exact .ite (fun _ => .ok rfl) fun _ => (Yields.self _).bind fun _ _ => .ite (fun _ => .ok rfl) fun hdir =>
    absurd (not_not.mp hdir) (show Kind.device ≠ .dir by decide)

theorem complete_vfsChdir (h : Ok s leaks) (t : τ) (a b : Alloc) (path : List UInt8) :
    Complete (s.vfsChdir t a b path) := by
  have hs := h.searches t a b path
  rw [System.vfsChdir, hs.eq]
  refine (complete_lift _).map.bind fun x hx => ?_
  obtain ⟨⟨r, k⟩, hlook, rfl⟩ := map_eq_ok.mp hx
  rw [lift_eq_ok] at hlook
  cases r with
  | error ret => exact complete_ok _
  | ok n =>
    have hkept := (vfsLookup_found (h.rooted t) a b path _ hlook).kept
    refine (complete_vfsSetCurdir fun m hm => ?_).bind fun y hy =>
      (complete_systemRefDec ?_).bind fun _ _ => complete_ok _
    · rw [show kind k m = kind (s.current t).kernel m from hkept.kind (h.pwd_pos hm)]
      exact h.placed.pwd t m hm
    · rintro devname rfl
      rw [vfsSetCurdir_dev _ _ _ y hy]
      exact hs.lasts _ k hlook devname rfl

omit [DecidableEq τ] in
theorem complete_vfsGetcwd (s : System τ) (t : τ) (allocs : ℕ → Alloc) (rounds : ℕ) (entry : Option Mem)
    (mem : Mem) (iob : Iobuf) : Complete (s.vfsGetcwd t allocs rounds entry mem iob) := by
  rw [System.vfsGetcwd]
  refine (complete_lift _).bind fun o _ => ?_
  cases o with
  | none => exact fun _ h => by cases h
  | some y => exact complete_ok _

theorem complete_closeLoop (m i : ℕ) (h : Ok s leaks) : Complete (System.closeLoop t m i s) := by
  induction m generalizing i s with
  | zero => exact complete_ok _
  | succ m ih =>
    rw [System.closeLoop]
    cases hf : (s.table t).fdArray i with
    | none => exact ih _ h
    | some f => exact (complete_fdArrayClose h hf).bind fun s₁ hs₁ => ih _ (h.fdArrayClose hf s₁ hs₁).1

theorem complete_filesDestroy (h : Ok s leaks) (t : τ) : Complete (s.filesDestroy t) := by
  rw [System.filesDestroy]
  cases hold : (s.table t).pwd with
  | none => exact complete_closeLoop _ _ h
  | some n =>
    have hdir : kind (s.setPwd t none).inodes.kernel n = .dir := h.placed.pwd t n hold
    exact (complete_systemRefDec (lasts_of_dir hdir _)).bind fun s₁ hs₁ =>
      complete_closeLoop _ _ ((h.clearPwd hold).refDec (t := t) s₁ hs₁).1

theorem complete_putFiles (h : Ok s leaks) (t : τ) : Complete (s.putFiles t) := by
  rw [System.putFiles]
  exact .ite (fun _ => complete_filesDestroy (h.filesCount _) t) fun _ => complete_ok _

theorem Ok.missing (h : Ok s leaks) (t : τ) (call : Call τ) (op : VopName) :
    call.run s t = .error (.missing op) ↔ call.Missing s t op := by
  have hnever : ∀ {call : Call τ}, Complete (call.run s t) → (∀ op, ¬ call.Missing s t op) →
      (call.run s t = .error (.missing op) ↔ call.Missing s t op) := fun hc hm =>
    iff_of_false (hc op) (hm op)
  cases call with
  | «open» a b c path flags => exact fileOpen_missing h
  | read fd base len drv => exact map_missing.trans (fileRead_missing h)
  | seek fd pos whence => exact fileSeek_missing
  | fsync fd => exact fileFsync_missing
  | getdirentry fd d entry => exact map_missing.trans fileGetdirentry_missing
  | close fd => exact hnever (complete_fileClose h _ _) fun _ hm => by cases hm
  | write fd base len drv => exact hnever (complete_fileWrite h).map fun _ hm => by cases hm
  | fstat fd => exact hnever (complete_fileFstat _ _ _).map fun _ hm => by cases hm
  | dup fd1 fd2 => exact hnever (complete_ok _) fun _ hm => by cases hm
  | chdir a b path => exact hnever (complete_vfsChdir h _ _ _ _) fun _ hm => by cases hm
  | getcwd allocs rounds entry mem iob =>
    exact hnever (complete_vfsGetcwd _ _ _ _ _ _ _).map fun _ hm => by cases hm
  | fork share answer => exact hnever (complete_ok _) fun _ hm => by cases hm
  | exec => exact hnever (complete_closeLoop _ _ h).map fun _ hm => by cases hm
  | exit => exact hnever (complete_putFiles h _).map fun _ hm => by cases hm

/-- **Which calls run into an operation that is not there**, in any state of a run.  A lookup always starts
at an inode that has `lookup`, and the working directory has `namefile`. -/
theorem missing_exact (h₀ : Initial s₀ t₀) (hrun : Run s₀ s leaks) (t : τ) :
    (∀ call op, Call.run s t call = .error (.missing op) ↔ call.Missing s t op) ∧
    (∀ a path sub n k, (s.current t).kernel.getDevice a path = .ok (.ok (sub, n), k) →
      .lookup ∈ (kind k n).ops) ∧
    ∀ n, (s.table t).pwd = some n → .namefile ∈ (kind s.inodes.kernel n).ops := by
  obtain ⟨h, -⟩ := hrun.ok h₀
  refine ⟨h.missing t, fun a path sub n k hstart => ?_, fun n hn => ?_⟩
  · exact h.getDevice_lookup t a path _ hstart sub n rfl
  · rw [h.placed.pwd t n hn]
    decide

/-- It asks for `a`, a directory, with `O_CREAT`. -/
def openCreate : Call ℕ := .open plenty plenty plenty [97] O_CREAT

/-- `dirent_ops` has no `truncate`. -/
theorem missing_exact_create : openCreate.run nestedSystem 0 = .error (.missing .truncate) := by
  have hlook : (((nestedSystem.current 0).kernel.vfsLookup plenty plenty [97]).toOption.any fun x =>
      x.1.toOption = some (.sfs 6) ∧ kind x.2 (.sfs 6) = .dir) = true := by decide +kernel
  obtain ⟨⟨r, k⟩, hr, hdir⟩ := exists_ok_of_any hlook
  obtain ⟨hnode, hkind⟩ := of_decide_eq_true hdir
  cases r with
  | error ret => cases hnode
  | ok n =>
    cases hnode
    refine ((missing_exact initial_nested .start 0).1 openCreate .truncate).mpr ?_
    exact .open rfl (.truncate rfl rfl rfl rfl rfl hr hkind)

end Ucore.Filesys
