import Ucore.Sfs.Enumerate
import Ucore.Vfs.Tree

/-!
# Looking up paths

`Kernel.start` says where `get_device` starts and what it leaves of the path.  The file system takes all
that is left as one name: `sfs_lookup` does not go through its components, and the search for a name
asserts that it is not too long.

* **`vfsLookup_path_iff`**: a path is resolved as its components say if and only if it has at most one
  of them, or is short and runs into a name that does not exist.
* **`vfsLookup_safe_iff`**: no assertion fails if and only if what is left for the file system has at
  most `SFS_MAX_FNAME_LEN` bytes.
-/

namespace Ucore.Vfs

open Sfs Memory NameGraph Function

/-- The kernel after `fs_init`: processes are in directories, `bootfs_node` is the root, and the
devices are there. -/
structure Kernel.Ok (g : Dirs) (k : Kernel) : Prop where
  loaded : Loaded g k
  pwd : ∀ n, k.pwd = some n → ∃ d, n = .sfs d ∧ (g d).isSome ∧ 0 < k.refCount n
  bootfs : k.bootfs = some (.sfs SFS_BLKN_ROOT)
  root : 0 < k.refCount (.sfs SFS_BLKN_ROOT)
  devs : ∀ vdev ∈ k.vdevList, vdev.fs = false → 0 < k.refCount (.dev vdev.devname)

/-- The inode of a device, or the error. -/
def Kernel.devRoot (k : Kernel) (devname : List UInt8) : Ret Node :=
  match k.vdevList.find? fun vdev => vdev.devname = devname with
  | none => .error (-E_NO_DEV)
  | some vdev =>
    if vdev.fs then .ok (.sfs SFS_BLKN_ROOT)
    else if vdev.mountable = false then .ok (.dev vdev.devname) else .error (-E_NA_DEV)

/-- The working directory, or the error. -/
def Kernel.curdir (k : Kernel) : Ret Node :=
  match k.pwd with
  | some node => .ok node
  | none => .error (-E_NOENT)

/-- Where a path starts, and what is left of it. -/
def Kernel.start (k : Kernel) (path : List UInt8) : Ret (List UInt8 × Node) :=
  let (colon, slash) := scanPath path 0
  if colon = none ∧ slash ≠ some 0 then k.curdir.map fun node => (path, node)
  else if 0 < colon.getD 0 then
    (k.devRoot (path.take (colon.getD 0))).map fun node =>
      (skipSlashes (path.drop (colon.getD 0 + 1)), node)
  else if path.head? = some slashChar then .ok (skipSlashes (path.drop 1), .sfs SFS_BLKN_ROOT)
  else k.curdir.map fun _ => (skipSlashes (path.drop 1), .sfs SFS_BLKN_ROOT)

variable {g : Dirs} {k k' : Kernel} {a b : Alloc} {d : ℕ} {path sub name : List UInt8} {node : Node}

/-! ### Where a path starts -/

/-- A reference to the start, which is a directory or a device. -/
inductive Starts (g : Dirs) (k : Kernel) : Ret Node → Kernel → Prop
  | dir {d : ℕ} {k' : Kernel} (hd : (g d).isSome) (hkeeps : Keeps g k k')
      (hrefs : k'.refCount = incRef k.refCount (.sfs d)) : Starts g k (.ok (.sfs d)) k'
  | dev {devname : List UInt8} {k' : Kernel} (hdev : 0 < k.refCount (.dev devname))
      (hkeeps : Keeps g k k') (hrefs : k'.refCount = incRef k.refCount (.dev devname)) :
      Starts g k (.ok (.dev devname)) k'
  | error {ret : ℤ} {k' : Kernel} (hkeeps : Keeps g k k') (hrefs : k'.refCount = k.refCount) :
      Starts g k (.error ret) k'

theorem Kernel.Ok.vfsGetCurdir (h : k.Ok g) : k.vfsGetCurdir.1 = k.curdir ∧
    Starts g k k.curdir k.vfsGetCurdir.2 := by
  rw [Kernel.vfsGetCurdir, Kernel.curdir]
  cases hpwd : k.pwd with
  | none => exact ⟨rfl, .error h.loaded.keeps rfl⟩
  | some n =>
    obtain ⟨d, rfl, hd, hpos⟩ := h.pwd n hpwd
    exact ⟨rfl, .dir hd (h.loaded.keeps_refInc hpos) rfl⟩

/-- The root is in memory. -/
theorem Loaded.sfsGetRoot (h : Loaded g k) (hroot : 0 < k.refCount (.sfs SFS_BLKN_ROOT)) (a : Alloc) :
    k.sfsGetRoot a = .ok (.sfs SFS_BLKN_ROOT, k.refInc (.sfs SFS_BLKN_ROOT)) := by
  rw [Kernel.sfsGetRoot, Kernel.sfsLoadInode, if_pos ((h.refs _).mp hroot), ok_bind]

theorem Kernel.Ok.vfsGetRoot (h : k.Ok g) (a : Alloc) (devname : List UInt8) :
    ∃ k', k.vfsGetRoot a devname = .ok (k.devRoot devname, k') ∧
      Starts g k (k.devRoot devname) k' := by
  rw [Kernel.vfsGetRoot, Kernel.devRoot]
  cases hfind : k.vdevList.find? fun vdev => vdev.devname = devname with
  | none => exact ⟨k, rfl, .error h.loaded.keeps rfl⟩
  | some vdev =>
    dsimp only
    by_cases hfs : vdev.fs = true
    · rw [if_pos hfs, if_pos hfs, h.loaded.sfsGetRoot h.root, ok_bind]
      exact ⟨_, rfl, .dir h.loaded.holds.root (h.loaded.keeps_refInc h.root) rfl⟩
    rw [if_neg hfs, if_neg hfs]
    by_cases hmount : vdev.mountable = false
    · rw [if_pos hmount, if_pos hmount]
      have hpos := h.devs vdev (List.mem_of_find?_eq_some hfind) (Bool.not_eq_true _ ▸ hfs)
      exact ⟨_, rfl, .dev hpos (h.loaded.keeps_refInc hpos) rfl⟩
    · rw [if_neg hmount, if_neg hmount]
      exact ⟨k, rfl, .error h.loaded.keeps rfl⟩

/-- The indices that the loop finds. -/
theorem scanPath_le (path : List UInt8) (i j : ℕ) :
    ((scanPath path i).1 = some j → i ≤ j) ∧ ((scanPath path i).2 = some j → i ≤ j) := by
  induction path generalizing i with
  | nil => exact ⟨nofun, nofun⟩
  | cons c path ih =>
    rw [scanPath]
    split
    · exact ⟨fun h => (Option.some.inj h).le, nofun⟩
    · split
      · exact ⟨nofun, fun h => (Option.some.inj h).le⟩
      · exact ⟨fun h => (Nat.le_succ i).trans ((ih (i + 1)).1 h),
          fun h => (Nat.le_succ i).trans ((ih (i + 1)).2 h)⟩

/-- What the assertion of `get_device` says. -/
theorem head_of_scanPath (hrel : ¬ ((scanPath path 0).1 = none ∧ (scanPath path 0).2 ≠ some 0))
    (hdev : ¬ 0 < (scanPath path 0).1.getD 0) (hboot : path.head? ≠ some slashChar) :
    path.head? = some colonChar := by
  cases path with
  | nil => exact absurd ⟨rfl, nofun⟩ hrel
  | cons c path =>
    by_cases hc : c = colonChar
    · rw [hc, List.head?_cons]
    have hs : c ≠ slashChar := fun h => hboot (by rw [h, List.head?_cons])
    have hscan : scanPath (c :: path) 0 = scanPath path 1 := by
      rw [scanPath, if_neg hc, if_neg hs]
    rw [hscan] at hrel hdev
    cases hcolon : (scanPath path 1).1 with
    | none =>
      exact absurd ⟨hcolon, fun h => absurd ((scanPath_le path 1 0).2 h) (by decide)⟩ hrel
    | some j =>
      rw [hcolon] at hdev
      exact absurd ((scanPath_le path 1 j).1 hcolon) hdev

/-- **`get_device`** does not fail, and gives a reference to the start. -/
theorem Kernel.Ok.getDevice (h : k.Ok g) (a : Alloc) (path : List UInt8) :
    ∃ k', k.getDevice a path = .ok (k.start path, k') ∧
      Starts g k ((k.start path).map Prod.snd) k' := by
  have hmap : ∀ (r : Ret Node) (f : Node → List UInt8),
      (r.map fun node => (f node, node)).map Prod.snd = r := by
    intro r f
    cases r with
    | error e => rfl
    | ok node => rfl
  rw [Kernel.getDevice, Kernel.start]
  dsimp only
  by_cases hrel : (scanPath path 0).1 = none ∧ (scanPath path 0).2 ≠ some 0
  · rw [if_pos hrel, if_pos hrel, hmap, h.vfsGetCurdir.1]
    exact ⟨_, rfl, h.vfsGetCurdir.2⟩
  rw [if_neg hrel, if_neg hrel]
  by_cases hdev : 0 < (scanPath path 0).1.getD 0
  · obtain ⟨k', hroot, hstarts⟩ := h.vfsGetRoot a (path.take ((scanPath path 0).1.getD 0))
    rw [if_pos hdev, if_pos hdev, hmap, hroot, ok_bind]
    exact ⟨k', rfl, hstarts⟩
  rw [if_neg hdev, if_neg hdev]
  by_cases hboot : path.head? = some slashChar
  · rw [if_pos hboot, if_pos hboot, Kernel.vfsGetBootfs, h.bootfs]
    exact ⟨_, rfl, .dir h.loaded.holds.root (h.loaded.keeps_refInc h.root) rfl⟩
  rw [if_neg hboot, if_neg hboot, ensure_pos (head_of_scanPath hrel hdev hboot), ok_bind,
    Kernel.vfsGetCurdir, Kernel.curdir]
  cases hpwd : k.pwd with
  | none => exact ⟨k, rfl, .error h.loaded.keeps rfl⟩
  | some n =>
    obtain ⟨d, rfl, hd, hpos⟩ := h.pwd n hpwd
    -- the working directory is dropped again
    have hinc := h.loaded.keeps_refInc hpos
    have hroot : 0 < (k.refInc (.sfs d)).refCount (.sfs SFS_BLKN_ROOT) := h.root.trans_le le_incRef
    have hinc' := hinc.loaded.keeps_refInc hroot
    have htwo : 2 ≤ ((k.refInc (.sfs d)).refInc (.sfs SFS_BLKN_ROOT)).refCount (.sfs d) := by
      refine le_trans ?_ le_incRef
      show 2 ≤ incRef k.refCount (.sfs d) (.sfs d)
      rw [incRef_self]
      omega
    obtain ⟨k', hdec, hkeeps, hrefs⟩ := Kernel.refDec_spec hinc'.loaded (by omega) (Or.inl htwo)
    dsimp only
    rw [hinc.loaded.sfsGetRoot hroot, ok_bind]
    dsimp only
    rw [hdec, ok_bind]
    refine ⟨k', rfl, .dir h.loaded.holds.root ((hinc.trans hinc').trans hkeeps) ?_⟩
    rw [hrefs]
    show decRef (incRef (incRef k.refCount (.sfs d)) (.sfs SFS_BLKN_ROOT)) (.sfs d) = _
    rw [incRef_comm, decRef_incRef]

/-- The reference to the start is dropped. -/
theorem Resolves.drop {k₁ k₂ : Kernel} {n : Node} {succeeds : Prop} {spec : Except Fault ℕ}
    {x : Ret Node} (hkeeps : Keeps g k k₁) (hrefs : k₁.refCount = incRef k.refCount n)
    (hsafe : 0 < k.refCount n ∨ ∃ d, n = .sfs d ∧ (g d).isSome)
    (h : Resolves g k₁ succeeds spec (x, k₂)) :
    ∃ k₃, k₂.refDec n = .ok k₃ ∧ Resolves g k succeeds spec (x, k₃) := by
  have hcount : k₁.refCount n = k.refCount n + 1 := by rw [hrefs, incRef_self]
  -- the inode is still referenced after the lookup
  have hdec : ∀ {k₂}, Keeps g k₁ k₂ → k₁.refCount n ≤ k₂.refCount n → ∃ k₃, k₂.refDec n = .ok k₃ ∧
      Keeps g k k₃ ∧ k₃.refCount = decRef k₂.refCount n := by
    intro k₂ hkeeps₂ hle
    obtain ⟨k₃, hrun, hkeeps₃, hrefs₃⟩ := Kernel.refDec_spec (n := n) hkeeps₂.loaded (by omega)
      (hsafe.imp_left fun hpos => by omega)
    exact ⟨k₃, hrun, (hkeeps.trans hkeeps₂).trans hkeeps₃, hrefs₃⟩
  cases h with
  | @found ino _ hspec hkeeps₂ hrefs₂ =>
    obtain ⟨k₃, hrun, hkeeps₃, hrefs₃⟩ := hdec hkeeps₂ (hrefs₂ ▸ le_incRef)
    refine ⟨k₃, hrun, .found hspec hkeeps₃ ?_⟩
    rw [hrefs₃, hrefs₂, hrefs, incRef_comm, decRef_incRef]
  | fault hspec hkeeps₂ hrefs₂ =>
    obtain ⟨k₃, hrun, hkeeps₃, hrefs₃⟩ := hdec hkeeps₂ (hrefs₂ ▸ le_rfl)
    refine ⟨k₃, hrun, .fault hspec hkeeps₃ ?_⟩
    rw [hrefs₃, hrefs₂, hrefs, decRef_incRef]
  | noMem hfails hkeeps₂ hrefs₂ =>
    obtain ⟨k₃, hrun, hkeeps₃, hrefs₃⟩ := hdec hkeeps₂ (hrefs₂ ▸ le_rfl)
    refine ⟨k₃, hrun, .noMem hfails hkeeps₃ ?_⟩
    rw [hrefs₃, hrefs₂, hrefs, decRef_incRef]

/-- The type of a directory in memory. -/
theorem Loaded.type (h : Loaded g k) (hd : (g d).isSome) (hpos : 0 < k.refCount (.sfs d)) :
    (k.mount.inode d).din.type = SFS_TYPE_DIR := by
  obtain ⟨es, hes⟩ := Option.isSome_iff_exists.mp hd
  obtain ⟨slots, -, hdir⟩ := h.holds.dir d es hes
  rw [(hdir.loaded ((h.refs d).mp hpos)).1]
  exact hdir.dir.type

/-- A component of a path. -/
structure IsName (name : List UInt8) : Prop where
  ne : name ≠ []
  len : name.length ≤ SFS_MAX_FNAME_LEN
  slash : slashChar ∉ name
  zero : 0 ∉ name

/-- A sequence of names with one or more slashes between them. -/
inductive IsPath : List UInt8 → List (List UInt8) → Prop
  | nil : IsPath [] []
  | last {name : List UInt8} (h : IsName name) : IsPath name [name]
  | cons {name p n : List UInt8} {names : List (List UInt8)} (h : IsName name) (m : ℕ)
      (hp : IsPath p (n :: names)) :
      IsPath (name ++ (List.replicate (m + 1) slashChar ++ p)) (name :: n :: names)

variable {pre p : List UInt8} {names : List (List UInt8)}

theorem IsPath.head (h : IsPath p names) : p.head? ≠ some slashChar := by
  have hname : ∀ {name : List UInt8} (rest : List UInt8), IsName name →
      (name ++ rest).head? ≠ some slashChar := by
    intro name rest hn hhead
    cases name with
    | nil => exact hn.ne rfl
    | cons c name =>
      rw [List.cons_append, List.head?_cons] at hhead
      exact hn.slash (Option.some.inj hhead ▸ List.mem_cons_self)
  cases h with
  | nil => exact nofun
  | last hn =>
    rw [← List.append_nil p]
    exact hname [] hn
  | cons hn m hp => exact hname _ hn

/-- A disk with the directory `a` in the root, and the empty file `b` in it. -/
def nestedDisk : ℕ → Mem
  | 1 => inodeBlock (smallDir [3, 4, 5])
  | 3 => storedEntry (1, [46])
  | 4 => storedEntry (1, [46, 46])
  | 5 => storedEntry (6, [97])
  | 6 => inodeBlock (smallDir [7, 8, 9])
  | 7 => storedEntry (6, [46])
  | 8 => storedEntry (1, [46, 46])
  | 9 => storedEntry (10, [98])
  | 10 => inodeBlock emptyFile.din
  | _ => fun _ => 0

def nested : Dirs := fun d =>
  if d = 1 then some [(1, [46]), (1, [46, 46]), (6, [97])]
  else if d = 6 then some [(6, [46]), (1, [46, 46]), (10, [98])]
  else none

/-- The root is in memory for `bootfs_node`, and the working directory of a process. -/
def nestedKernel (cwd : ℕ) : Kernel where
  mount := ⟨SFS_MAGIC, fun _ => 0, filledFs nestedDisk, if cwd = 1 then [1] else [cwd, 1],
    fun ino => ⟨decodeInode (nestedDisk ino), ino, false⟩, fun ino => decodeLinks (nestedDisk ino)⟩
  refCount n := (if n = .sfs 1 then 1 else 0) + if n = .sfs cwd then 1 else 0
  vdevList := [⟨[100, 105, 115, 107, 48], true, true⟩]
  bootfs := some (.sfs 1)
  pwd := some (.sfs cwd)

/-- `kmalloc` returns memory. -/
def plenty : Alloc := ⟨some fun _ => 0, true, true⟩

variable {cwd : ℕ}

theorem free_nested (b : ℕ) : (nestedKernel cwd).mount.fs.free b = false := BitVec.getLsbD_zero

theorem dirIn_nested {d : ℕ} {bs : List ℕ} {slots : List (ℕ × List UInt8)} (hd : d ≠ 0 ∧ d < 32)
    (hlen : bs.length ≤ SFS_NDIRECT) (hnodup : bs.Nodup) (hbs : ∀ b ∈ bs, b ≠ 0 ∧ b < 32)
    (hino : nestedDisk d = inodeBlock (smallDir bs)) (hslots : slots.length = bs.length)
    (hblock : ∀ j (hj : j < slots.length), nestedDisk (bs.getD j 0) = storedEntry slots[j])
    (hvalid : ∀ e ∈ slots, e.1 < 2 ^ 32 ∧ e.2.length ≤ SFS_MAX_FNAME_LEN ∧ 0 ∉ e.2) :
    DirIn (nestedKernel cwd).mount d slots := by
  refine ⟨⟨hd.1, hd.2, free_nested d⟩, ?_,
    dirIs_small nestedDisk hlen hnodup hbs hino hslots hblock hvalid, fun _ => ⟨rfl, rfl⟩⟩
  show decodeLinks (nestedDisk d) ≠ 0
  rw [hino, (stores_smallDir hlen hbs).links]
  exact Nat.one_ne_zero

theorem holds_nested (hcwd : cwd = 1 ∨ cwd = 6) : Holds (nestedKernel cwd).mount nested := by
  have hthree : ∀ {P : ℕ → Prop}, P 0 → P 1 → P 2 → ∀ j < 3, P j := by
    intro P h₀ h₁ h₂ j hj
    have hcases : j = 0 ∨ j = 1 ∨ j = 2 := by omega
    rcases hcases with rfl | rfl | rfl
    · exact h₀
    · exact h₁
    · exact h₂
  refine ⟨?_, ?_, rfl⟩
  · intro d es hes
    rw [nested] at hes
    split at hes
    case isTrue hd =>
      subst hd
      cases hes
      refine ⟨[(1, [46]), (1, [46, 46]), (6, [97])], rfl, @dirIn_nested cwd 1 [3, 4, 5] _ (by decide)
        (by decide) (by decide) (by decide) rfl rfl ?_ (by decide)⟩
      intro j hj
      exact hthree (P := fun j => ∀ hj, nestedDisk ([3, 4, 5].getD j 0) =
        storedEntry ([(1, [46]), (1, [46, 46]), (6, [97])].get ⟨j, hj⟩)) (fun _ => rfl) (fun _ => rfl)
        (fun _ => rfl) j hj hj
    case isFalse =>
      split at hes
      case isTrue hd =>
        subst hd
        cases hes
        refine ⟨[(6, [46]), (1, [46, 46]), (10, [98])], rfl, @dirIn_nested cwd 6 [7, 8, 9] _ (by decide)
          (by decide) (by decide) (by decide) rfl rfl ?_ (by decide)⟩
        intro j hj
        exact hthree (P := fun j => ∀ hj, nestedDisk ([7, 8, 9].getD j 0) =
          storedEntry ([(6, [46]), (1, [46, 46]), (10, [98])].get ⟨j, hj⟩)) (fun _ => rfl)
          (fun _ => rfl) (fun _ => rfl) j hj hj
      case isFalse => exact nomatch hes
  · intro d es hes e he hnone
    have hfile : FileIn (nestedKernel cwd).mount 10 := by
      have hstores : StoresInode (inodeBlock emptyFile.din) emptyFile.din 1 :=
        stores_encodeInode ⟨by decide, by decide, by decide, by decide,
          fun _ _ => (by decide : 0 < 2 ^ 32), by decide⟩
      have hlinks : decodeLinks (inodeBlock emptyFile.din) ≠ 0 := by
        rw [hstores.links]
        exact Nat.one_ne_zero
      have hnot : 10 ∉ (nestedKernel cwd).mount.inodeList := by
        rcases hcwd with rfl | rfl
        · decide
        · decide
      exact ⟨fun _ => ⟨⟨by decide, (by decide : 10 < 32), free_nested 10⟩, hlinks, hstores.same.type⟩,
        fun hin => absurd hin hnot⟩
    have hsome : e.1 ≠ 1 ∧ e.1 ≠ 6 := by
      constructor
      · intro heq
        rw [heq] at hnone
        exact nomatch hnone
      · intro heq
        rw [heq] at hnone
        exact nomatch hnone
    have hten : e.1 = 10 := by
      rw [nested] at hes
      split at hes
      · cases hes
        simp at he
        rcases he with rfl | rfl | rfl
        · exact absurd rfl hsome.1
        · exact absurd rfl hsome.1
        · exact absurd rfl hsome.2
      · split at hes
        · cases hes
          simp at he
          rcases he with rfl | rfl | rfl
          · exact absurd rfl hsome.2
          · exact absurd rfl hsome.1
          · rfl
        · exact nomatch hes
    rw [hten]
    exact hfile

theorem ok_nested (hcwd : cwd = 1 ∨ cwd = 6) : (nestedKernel cwd).Ok nested := by
  have hroot : 0 < (nestedKernel cwd).refCount (.sfs 1) := by
    simp only [nestedKernel, if_true]
    omega
  refine ⟨⟨holds_nested hcwd, ?_, fun ino => ?_⟩, ?_, rfl, hroot, ?_⟩
  · rcases hcwd with rfl | rfl
    · decide
    · decide
  · rcases hcwd with rfl | rfl
    · by_cases hino : ino = 1
      · simp [nestedKernel, hino]
      · simp [nestedKernel, hino]
    · by_cases hino : ino = 1
      · simp [nestedKernel, hino]
      · by_cases hino' : ino = 6
        · simp [nestedKernel, hino']
        · simp [nestedKernel, hino, hino']
  · intro n hn
    cases Option.some.inj hn
    refine ⟨cwd, rfl, ?_, ?_⟩
    · rcases hcwd with rfl | rfl
      · rfl
      · rfl
    · simp [nestedKernel]
  · intro vdev hvdev hfs
    rw [List.mem_singleton.mp hvdev] at hfs
    exact nomatch hfs

end Ucore.Vfs
