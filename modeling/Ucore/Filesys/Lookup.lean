import Ucore.Filesys.Model

/-!
# What the kernel's functions do to the references

Whatever is on the device, a path lookup that returns has taken one reference to the inode that it gives,
or none (`vfsLookup_found`), and `vfs_getcwd` none (`vfsGetcwd_kept`).  An inode of the file system is in
memory as long as it is referred to (`Tidy`), and while it is, its type stays (`Kept`).
-/

namespace Ucore.Filesys

open Sfs Vfs Memory Fallible Function

variable {k k' k'' k₁ k₂ : Kernel} {n p : Node} {ino : ℕ} {r : Node → ℕ}

/-- An inode is in memory if it is referred to. -/
structure Tidy (k : Kernel) : Prop where
  nodup : k.mount.inodeList.Nodup
  refs : ∀ ino, 0 < k.refCount (.sfs ino) ↔ ino ∈ k.mount.inodeList
  links : ∀ ino ∈ k.mount.inodeList, k.mount.nlinks ino ≠ 0

/-- What the functions keep. -/
structure Kept (k k' : Kernel) : Prop where
  tidy : Tidy k'
  vdevList : k'.vdevList = k.vdevList
  bootfs : k'.bootfs = k.bootfs
  pwd : k'.pwd = k.pwd
  type : ∀ ino, 0 < k.refCount (.sfs ino) → (k'.mount.inode ino).din.type = (k.mount.inode ino).din.type

theorem Tidy.kept (h : Tidy k) : Kept k k := ⟨h, rfl, rfl, rfl, fun _ _ => rfl⟩

theorem Kept.trans (h : Kept k k') (hle : ∀ n, k.refCount n ≤ k'.refCount n) (h' : Kept k' k'') :
    Kept k k'' :=
  ⟨h'.tidy, h'.vdevList.trans h.vdevList, h'.bootfs.trans h.bootfs, h'.pwd.trans h.pwd,
    fun ino hpos => (h'.type ino (hpos.trans_le (hle _))).trans (h.type ino hpos)⟩

theorem Kept.kind (h : Kept k k') (hpos : 0 < k.refCount n) : kind k' n = kind k n := by
  cases n with
  | sfs ino => rw [Filesys.kind, Filesys.kind, h.type ino hpos]
  | dev devname => rfl

/-! ### The counts -/

theorem incRef_apply : incRef r n p = r p + if p = n then 1 else 0 := by
  by_cases hp : p = n
  · rw [hp, incRef_self, if_pos rfl]
  · rw [incRef_of_ne hp, if_neg hp]
    rfl

theorem decRef_apply : decRef r n p = r p - if p = n then 1 else 0 := by
  by_cases hp : p = n
  · rw [hp, decRef_self, if_pos rfl]
  · rw [decRef_of_ne hp, if_neg hp]
    rfl

/-- There is an inode: a device, or an inode of the file system that is referred to. -/
def Present (k : Kernel) (n : Node) : Prop := ∀ ino, n = .sfs ino → 0 < k.refCount n

theorem Tidy.refInc (h : Tidy k) (hn : Present k n) : Kept k (k.refInc n) := by
  refine ⟨⟨h.nodup, fun ino => ?_, h.links⟩, rfl, rfl, rfl, fun _ _ => rfl⟩
  rw [← show k.mount.inodeList = (k.refInc n).mount.inodeList from rfl, ← h.refs ino]
  show 0 < incRef k.refCount n (.sfs ino) ↔ _
  rw [incRef_apply]
  by_cases hsame : Node.sfs ino = n
  · have hpos := hn ino hsame.symm
    rw [← hsame] at hpos
    rw [if_pos hsame]
    omega
  · rw [if_neg hsame]
    rfl

/-- An inode with the same type is stored back. -/
theorem Tidy.setInode (h : Tidy k) {fs : Fs} {sin : Inode}
    (hs : SameType (k.mount.inode ino) sin) : Kept k { k with mount := k.mount.setInode ino fs sin } := by
  refine ⟨⟨h.nodup, h.refs, h.links⟩, rfl, rfl, rfl, fun j _ => ?_⟩
  show (update k.mount.inode ino sin j).din.type = _
  by_cases hj : j = ino
  · rw [hj, update_self, hs.type]
  · rw [update_of_ne hj]

/-! ### `inode_ref_dec` -/

/-- `sfs_fsync` changes nothing but the flag and the device. -/
theorem sfsFsync_same (m : Mount) (ino : ℕ) : Yields (sfsFsync m ino) fun m' =>
    m'.inodeList = m.inodeList ∧ m'.nlinks = m.nlinks ∧
      ∀ j, (m'.inode j).din.type = (m.inode j).din.type := by
  rw [sfsFsync]
  refine .ite (fun _ => (Yields.self _).bind fun fs _ => .ok ⟨rfl, rfl, fun j => ?_⟩) fun _ =>
    .ok ⟨rfl, rfl, fun _ => rfl⟩
  show (update m.inode ino _ j).din.type = _
  by_cases hj : j = ino
  · rw [hj, update_self]
  · rw [update_of_ne hj]

theorem Tidy.setMount (h : Tidy k) {m : Mount} (hm : m.inodeList = k.mount.inodeList ∧
    m.nlinks = k.mount.nlinks ∧ ∀ j, (m.inode j).din.type = (k.mount.inode j).din.type) :
    Kept k { k with mount := m } := by
  obtain ⟨hlist, hlinks, htype⟩ := hm
  refine ⟨⟨?_, fun ino => ?_, fun ino hino => ?_⟩, rfl, rfl, rfl, fun j _ => htype j⟩
  · show m.inodeList.Nodup
    rw [hlist]
    exact h.nodup
  · show _ ↔ ino ∈ m.inodeList
    rw [hlist]
    exact h.refs ino
  · show m.nlinks ino ≠ 0
    rw [hlinks]
    exact h.links ino (hlist ▸ hino)

/-- An inode with links is written back and taken from the list. -/
theorem sfsReclaim_same {m : Mount} (hlinks : m.nlinks ino ≠ 0) : Yields (sfsReclaim m ino) fun x =>
    x.2.inodeList = m.inodeList.erase ino ∧ x.2.nlinks = m.nlinks ∧
      ∀ j, (x.2.inode j).din.type = (m.inode j).din.type := by
  rw [sfsReclaim, if_neg hlinks]
  refine (Yields.self _).bind fun x hx => ?_
  cases hx
  refine .ite (fun h => absurd rfl h) fun _ => (sfsFsync_same m ino).bind fun m' hm => ?_
  obtain ⟨hlist, hnl, htype⟩ := hm
  refine .ite (fun h0 => absurd h0 ?_) fun _ => .ok ⟨by rw [hlist], hnl, htype⟩
  show m'.nlinks ino ≠ 0
  rw [hnl]
  exact hlinks

/-- **`inode_ref_dec`**: the inode goes from memory with its last reference. -/
theorem refDec_kept (h : Tidy k) : Yields (k.refDec n) fun k' =>
    0 < k.refCount n ∧ Kept k k' ∧ k'.refCount = decRef k.refCount n := by
  rw [Kernel.refDec]
  refine Yields.require.bind fun _ hpos => ?_
  have hrefs : ∀ ino, Node.sfs ino ≠ n →
      (0 < decRef k.refCount n (.sfs ino) ↔ ino ∈ k.mount.inodeList) := by
    intro ino hne
    rw [decRef_of_ne hne]
    exact h.refs ino
  refine .ite (fun hzero => ?_) fun hzero => .ok ⟨hpos, ?_, rfl⟩
  · have hlast : decRef k.refCount n n = 0 := hzero
    cases n with
    | dev devname => exact .error _
    | sfs ino =>
      have hmem := (h.refs ino).mp hpos
      refine (sfsReclaim_same (h.links ino hmem)).bind fun x hx => .ok ⟨hpos, ?_, rfl⟩
      obtain ⟨hlist, hlinks, htype⟩ := hx
      refine ⟨⟨?_, fun j => ?_, fun j hj => ?_⟩, rfl, rfl, rfl, fun j _ => htype j⟩
      · show x.2.inodeList.Nodup
        rw [hlist]
        exact h.nodup.erase _
      · show 0 < decRef k.refCount (.sfs ino) (.sfs j) ↔ j ∈ x.2.inodeList
        rw [hlist]
        by_cases hj : j = ino
        · rw [hj, hlast]
          exact iff_of_false (lt_irrefl 0) h.nodup.not_mem_erase
        · rw [hrefs j fun heq => hj (Node.sfs.inj heq), List.mem_erase_of_ne hj]
      · show x.2.nlinks j ≠ 0
        have hj' : j ∈ x.2.inodeList := hj
        rw [hlinks]
        rw [hlist] at hj'
        exact h.links j (List.mem_of_mem_erase hj')
  · have hpos' : 0 < decRef k.refCount n n := Nat.pos_of_ne_zero hzero
    refine ⟨⟨h.nodup, fun ino => ?_, h.links⟩, rfl, rfl, rfl, fun _ _ => rfl⟩
    show 0 < decRef k.refCount n (.sfs ino) ↔ _
    by_cases hne : Node.sfs ino = n
    · rw [← hne] at hpos' hpos
      rw [← hne]
      exact iff_of_true hpos' ((h.refs ino).mp hpos)
    · exact hrefs ino hne

/-! ### Lookups -/

/-- What a lookup has done: one more reference to the inode that it gives, or an error. -/
inductive Found (k : Kernel) : Ret Node → Kernel → Prop
  | found {n : Node} {k' : Kernel} (hkept : Kept k k') (hrefs : k'.refCount = incRef k.refCount n) :
      Found k (.ok n) k'
  | error {ret : ℤ} {k' : Kernel} (hkept : Kept k k') (hrefs : k'.refCount = k.refCount) :
      Found k (.error ret) k'

theorem Found.kept {x : Ret Node} (h : Found k x k') : Kept k k' := by
  cases h with
  | found hkept => exact hkept
  | error hkept => exact hkept

theorem Found.le {x : Ret Node} (h : Found k x k') (n : Node) : k.refCount n ≤ k'.refCount n := by
  cases h with
  | found hkept hrefs =>
    rw [hrefs]
    exact le_incRef
  | error hkept hrefs => rw [hrefs]

/-- Before the lookup something has happened that changes no reference. -/
theorem Found.after {x : Ret Node} (hkept : Kept k k₁) (hrefs : k₁.refCount = k.refCount)
    (h : Found k₁ x k₂) : Found k x k₂ := by
  have hle : ∀ n, k.refCount n ≤ k₁.refCount n := fun n => by rw [hrefs]
  cases h with
  | found hkept' hrefs' => exact .found (hkept.trans hle hkept') (by rw [hrefs', hrefs])
  | error hkept' hrefs' => exact .error (hkept.trans hle hkept') (by rw [hrefs', hrefs])

/-- A reference that was taken since `k` is given back. -/
theorem refDec_incRef (h : Kept k k₁) (hrefs : k₁.refCount = incRef r n) (hle : ∀ p, k.refCount p ≤ r p) :
    Yields (k₁.refDec n) fun k' => Kept k k' ∧ k'.refCount = r := by
  refine (refDec_kept h.tidy).mono fun k' hk' => ?_
  obtain ⟨-, hkept, hrefs'⟩ := hk'
  refine ⟨h.trans (fun p => (hle p).trans ?_) hkept, by rw [hrefs', hrefs, decRef_incRef]⟩
  rw [hrefs]
  exact le_incRef

/-- The reference to the inode where the lookup has started is given back. -/
theorem Found.drop {x : Ret Node} (hkept : Kept k k₁) (hrefs : k₁.refCount = incRef k.refCount n)
    (h : Found k₁ x k₂) : Yields (k₂.refDec n) fun k' => Found k x k' := by
  have hle : ∀ p, k.refCount p ≤ k₁.refCount p := fun p => by
    rw [hrefs]
    exact le_incRef
  have hall := hkept.trans hle h.kept
  cases h with
  | @found node _ _ hrefs₂ =>
    rw [hrefs, incRef_comm] at hrefs₂
    exact (refDec_incRef hall hrefs₂ fun _ => le_incRef).mono fun _ hk' => .found hk'.1 hk'.2
  | error _ hrefs₂ =>
    exact (refDec_incRef hall (hrefs₂.trans hrefs) fun _ => le_rfl).mono fun _ hk' => .error hk'.1 hk'.2

/-- `sfs_load_inode` -/
theorem sfsLoadInode_found (h : Tidy k) (a : Alloc) (ino : ℕ) :
    Yields (k.sfsLoadInode a ino) fun x => Found k x.1 x.2 := by
  rw [Kernel.sfsLoadInode]
  refine .ite (fun hmem => .ok (.found (h.refInc fun _ _ => (h.refs ino).mpr hmem) rfl)) fun hmem =>
    .ite (fun _ => .ok (.error h.kept rfl)) fun _ => .ite (fun _ => ?_) fun _ => ?_
  · exact (Yields.self _).bind fun _ _ => (Yields.self _).bind fun _ _ => (Yields.self _).bind fun _ _ =>
      .ok (.error h.kept rfl)
  have hzero : k.refCount (.sfs ino) = 0 :=
    Nat.eq_zero_of_not_pos fun hpos => hmem ((h.refs ino).mp hpos)
  have hload : Yields (Sfs.sfsLoadInode k.mount ino) fun m => ∃ sin n, n ≠ 0 ∧
      m = { k.mount.setInode ino k.mount.fs sin with
        inodeList := ino :: k.mount.inodeList
        nlinks := update k.mount.nlinks ino n } := by
    rw [Sfs.sfsLoadInode, if_neg hmem]
    exact (Yields.self _).bind fun _ _ => (Yields.self _).bind fun bytes _ => Yields.require.bind fun _ hn =>
      (Yields.self _).bind fun _ _ => .ok ⟨_, _, hn, rfl⟩
  refine hload.bind fun m hm => ?_
  obtain ⟨sin, n, hn, rfl⟩ := hm
  have hne : ∀ {j}, j ∈ k.mount.inodeList → j ≠ ino := fun hj heq => hmem (heq ▸ hj)
  refine .ok (.found ⟨⟨List.nodup_cons.mpr ⟨hmem, h.nodup⟩, fun j => ?_, fun j hj => ?_⟩, rfl, rfl, rfl,
    fun j hj => ?_⟩ ?_)
  · show 0 < update k.refCount (.sfs ino) 1 (.sfs j) ↔ j ∈ ino :: k.mount.inodeList
    by_cases hj : j = ino
    · rw [hj, update_self]
      exact iff_of_true Nat.one_pos List.mem_cons_self
    · rw [update_of_ne fun heq => hj (Node.sfs.inj heq), h.refs j, List.mem_cons, or_iff_right hj]
  · show update k.mount.nlinks ino n j ≠ 0
    rcases List.mem_cons.mp hj with rfl | hj
    · rw [update_self]
      exact hn
    · rw [update_of_ne (hne hj)]
      exact h.links j hj
  · show (update k.mount.inode ino sin j).din.type = _
    rw [update_of_ne (hne ((h.refs j).mp hj))]
  · show update k.refCount (.sfs ino) 1 = incRef k.refCount (.sfs ino)
    rw [incRef, hzero]

theorem sfsLookupOnce_found (h : Tidy k) (a : Alloc) (ino : ℕ) (name : List UInt8) :
    Yields (k.sfsLookupOnce a ino name) fun x => Found k x.1 x.2 := by
  rw [Kernel.sfsLookupOnce]
  refine (sfsDirentSearch_type _ _ _ _).bind fun x hx => ?_
  have hset : Kept k { k with mount := k.mount.setInode ino x.2.1 x.2.2 } := h.setInode hx
  exact .ite (fun _ => .ok (.error hset rfl)) fun _ =>
    (sfsLoadInode_found hset.tidy a _).mono fun _ hf => hf.after hset rfl

theorem sfsLookup_found (h : Tidy k) (a : Alloc) (hino : 0 < k.refCount (.sfs ino)) (path : List UInt8) :
    Yields (k.sfsLookup a ino path) fun x => Found k x.1 x.2 := by
  have hinc := h.refInc (n := .sfs ino) fun _ _ => hino
  rw [Kernel.sfsLookup]
  refine (Yields.self _).bind fun _ _ => .ite (fun _ => ?_) fun _ => ?_
  · exact (Found.drop (x := .error (-E_NOTDIR)) hinc rfl (.error hinc.tidy.kept rfl)).bind fun k' hk' => .ok hk'
  · exact (sfsLookupOnce_found hinc.tidy a ino path).bind fun x hx =>
      (hx.drop hinc rfl).bind fun k' hk' => .ok hk'

theorem sfsGetRoot_found (h : Tidy k) (a : Alloc) :
    Yields (k.sfsGetRoot a) fun x => Found k (.ok x.1) x.2 := by
  rw [Kernel.sfsGetRoot]
  refine (sfsLoadInode_found h a _).bind fun x hx => ?_
  obtain ⟨r, k'⟩ := x
  cases r with
  | error ret => exact .error _
  | ok node => exact .ok hx

theorem vfsGetRoot_found (h : Tidy k) (a : Alloc) (devname : List UInt8) :
    Yields (k.vfsGetRoot a devname) fun x => Found k x.1 x.2 := by
  rw [Kernel.vfsGetRoot]
  cases k.vdevList.find? fun vdev => vdev.devname = devname with
  | none => exact .ok (.error h.kept rfl)
  | some vdev =>
    exact .ite (fun _ => (sfsGetRoot_found h a).bind fun _ hx => .ok hx) fun _ =>
      .ite (fun _ => .ok (.found (h.refInc fun _ hn => by cases hn) rfl)) fun _ => .ok (.error h.kept rfl)

/-- If it is a device, it is in `vdev_list`. -/
def Known (k : Kernel) (n : Node) : Prop :=
  ∀ devname, n = .dev devname → devname ∈ k.vdevList.map VfsDev.devname

/-- The inodes where a lookup may start are referred to. -/
structure Rooted (k : Kernel) : Prop extends Tidy k where
  pwd : ∀ n, k.pwd = some n → 0 < k.refCount n
  bootfs : ∀ n, k.bootfs = some n → 0 < k.refCount n
  pwdKnown : ∀ n, k.pwd = some n → Known k n
  bootfsKnown : ∀ n, k.bootfs = some n → Known k n
  devices : ∀ devname ∈ k.vdevList.map VfsDev.devname, 0 < k.refCount (.dev devname)

theorem vfsGetCurdir_found (h : Rooted k) : Found k k.vfsGetCurdir.1 k.vfsGetCurdir.2 := by
  rw [Kernel.vfsGetCurdir]
  cases hpwd : k.pwd with
  | none => exact .error h.kept rfl
  | some n => exact .found (h.refInc fun _ _ => h.pwd n hpwd) rfl

theorem vfsGetBootfs_found (h : Rooted k) : Found k k.vfsGetBootfs.1 k.vfsGetBootfs.2 := by
  rw [Kernel.vfsGetBootfs]
  cases hboot : k.bootfs with
  | none => exact .error h.kept rfl
  | some n => exact .found (h.refInc fun _ _ => h.bootfs n hboot) rfl

/-- **`get_device`** has a reference to the inode where to start. -/
theorem getDevice_found (h : Rooted k) (a : Alloc) (path : List UInt8) :
    Yields (k.getDevice a path) fun x => Found k (x.1.map Prod.snd) x.2 := by
  have hmap : ∀ {r : Ret Node} {k' : Kernel} (f : Node → List UInt8), Found k r k' →
      Found k ((r.map fun node => (f node, node)).map Prod.snd) k' := by
    intro r k' f hr
    cases r with
    | error ret => exact hr
    | ok node => exact hr
  rw [Kernel.getDevice]
  refine .ite (fun _ => .ok (hmap _ (vfsGetCurdir_found h))) fun _ => .ite (fun _ => ?_) fun _ =>
    .ite (fun _ => .ok (hmap _ (vfsGetBootfs_found h))) fun _ => (Yields.self _).bind fun _ _ => ?_
  · exact (vfsGetRoot_found h.toTidy a _).bind fun x hx => .ok (hmap _ hx)
  · have hcur := vfsGetCurdir_found h
    generalize k.vfsGetCurdir = x at hcur
    obtain ⟨r, k₁⟩ := x
    cases hcur with
    | error hkept hrefs => exact .ok (.error hkept hrefs)
    | @found node _ hkept hrefs =>
      cases node with
      | dev devname => exact .error _
      | sfs ino =>
        exact (sfsGetRoot_found hkept.tidy a).bind fun x hx => (hx.drop hkept hrefs).bind fun k' hk' =>
          .ok hk'

theorem vopLookup_found (h : Tidy k) (a : Alloc) (hn : Present k n) (path : List UInt8) :
    Yields (k.vopLookup a n path) fun x => Found k x.1 x.2 := by
  cases n with
  | sfs ino => exact .ite (fun _ => sfsLookup_found h a (hn ino rfl) path) fun _ => .error _
  | dev devname => exact .ite (fun _ => .ok (.error h.kept rfl)) fun _ => .ok (.found (h.refInc fun _ hn => by cases hn) rfl)

/-- **`vfs_lookup`** -/
theorem vfsLookup_found (h : Rooted k) (a b : Alloc) (path : List UInt8) :
    Yields (k.vfsLookup a b path) fun x => Found k x.1 x.2 := by
  rw [Kernel.vfsLookup]
  refine (getDevice_found h a path).bind fun x hx => ?_
  obtain ⟨r, k₁⟩ := x
  cases r with
  | error ret => exact .ok hx
  | ok start =>
    obtain ⟨sub, node⟩ := start
    refine .ite (fun _ => ?_) fun _ => .ok hx
    obtain ⟨hkept, hrefs⟩ : Kept k k₁ ∧ k₁.refCount = incRef k.refCount node := by
      cases hx with
      | found hkept hrefs => exact ⟨hkept, hrefs⟩
    have hpos : Present k₁ node := fun _ _ => by
      rw [hrefs, incRef_self]
      exact Nat.succ_pos _
    exact (vopLookup_found hkept.tidy b hpos sub).bind fun y hy => (hy.drop hkept hrefs).bind fun k' hk' =>
      .ok hk'

/-! ### Where lookups start -/

/-- An inode at which `get_device` may let a lookup start. -/
def IsStart (k : Kernel) (n : Node) : Prop :=
  k.pwd = some n ∨ k.bootfs = some n ∨ n = .sfs SFS_BLKN_ROOT ∨ ∃ vdev ∈ k.vdevList, n = .dev vdev.devname

theorem sfsLoadInode_node {k : Kernel} (a : Alloc) (ino : ℕ) :
    Yields (k.sfsLoadInode a ino) fun x => ∀ n, x.1 = .ok n → n = .sfs ino := by
  rw [Kernel.sfsLoadInode]
  refine .ite (fun _ => .ok fun n hn => (Except.ok.inj hn).symm) fun _ =>
    .ite (fun _ => .ok fun n hn => by cases hn) fun _ => .ite (fun _ => ?_) fun _ => ?_
  · exact (Yields.self _).bind fun _ _ => (Yields.self _).bind fun _ _ => (Yields.self _).bind fun _ _ =>
      .ok fun n hn => by cases hn
  · exact (Yields.self _).bind fun _ _ => .ok fun n hn => (Except.ok.inj hn).symm

theorem sfsGetRoot_node {k : Kernel} (a : Alloc) :
    Yields (k.sfsGetRoot a) fun x => x.1 = .sfs SFS_BLKN_ROOT := by
  rw [Kernel.sfsGetRoot]
  refine (sfsLoadInode_node a _).bind fun x hx => ?_
  obtain ⟨r, k'⟩ := x
  cases r with
  | error ret => exact .error _
  | ok n => exact .ok (hx n rfl)

theorem vfsGetRoot_isStart {k : Kernel} (a : Alloc) (devname : List UInt8) :
    Yields (k.vfsGetRoot a devname) fun x => ∀ n, x.1 = .ok n → IsStart k n := by
  rw [Kernel.vfsGetRoot]
  cases hfind : k.vdevList.find? fun vdev => vdev.devname = devname with
  | none => exact .ok fun n hn => by cases hn
  | some vdev =>
    refine .ite (fun _ => (sfsGetRoot_node a).bind fun x hx => .ok fun n hn => ?_) fun _ =>
      .ite (fun _ => .ok fun n hn => ?_) fun _ => .ok fun n hn => by cases hn
    · exact .inr (.inr (.inl ((Except.ok.inj hn).symm.trans hx)))
    · exact .inr (.inr (.inr ⟨vdev, List.mem_of_find?_eq_some hfind, (Except.ok.inj hn).symm⟩))

theorem getDevice_isStart {k : Kernel} (a : Alloc) (path : List UInt8) :
    Yields (k.getDevice a path) fun x => ∀ sub n, x.1 = .ok (sub, n) → IsStart k n := by
  have hmap : ∀ {r : Ret Node} {f : Node → List UInt8}, (∀ n, r = .ok n → IsStart k n) →
      ∀ sub n, r.map (fun node => (f node, node)) = .ok (sub, n) → IsStart k n := by
    intro r f hr sub n hn
    cases r with
    | error ret => cases hn
    | ok m =>
      cases hn
      exact hr _ rfl
  have hcur : ∀ n, k.vfsGetCurdir.1 = .ok n → IsStart k n := by
    intro n hn
    rw [Kernel.vfsGetCurdir] at hn
    cases hpwd : k.pwd with
    | none =>
      rw [hpwd] at hn
      cases hn
    | some m =>
      rw [hpwd] at hn
      cases hn
      exact .inl hpwd
  have hboot : ∀ n, k.vfsGetBootfs.1 = .ok n → IsStart k n := by
    intro n hn
    rw [Kernel.vfsGetBootfs] at hn
    cases hbootfs : k.bootfs with
    | none =>
      rw [hbootfs] at hn
      cases hn
    | some m =>
      rw [hbootfs] at hn
      cases hn
      exact .inr (.inl hbootfs)
  rw [Kernel.getDevice]
  refine .ite (fun _ => .ok (hmap hcur)) fun _ => .ite (fun _ => ?_) fun _ => .ite (fun _ => .ok (hmap hboot))
    fun _ => (Yields.self _).bind fun _ _ => ?_
  · exact (vfsGetRoot_isStart a _).bind fun x hx => .ok (hmap hx)
  · generalize k.vfsGetCurdir = x
    obtain ⟨r, k₁⟩ := x
    cases r with
    | error ret => exact .ok fun sub n hn => by cases hn
    | ok node =>
      cases node with
      | dev devname => exact .error _
      | sfs ino =>
        refine (sfsGetRoot_node a).bind fun y hy => (Yields.self _).bind fun _ _ => .ok fun sub n hn => ?_
        cases hn
        exact .inr (.inr (.inl hy))

theorem IsStart.known (h : Rooted k) (hn : IsStart k n) : Known k n := by
  rcases hn with hpwd | hboot | rfl | ⟨vdev, hvdev, rfl⟩
  · exact h.pwdKnown n hpwd
  · exact h.bootfsKnown n hboot
  · exact fun devname hdev => by cases hdev
  · rintro _ ⟨rfl⟩
    exact List.mem_map_of_mem hvdev

/-- `vop_lookup` gives an inode of the file system, or the one that it has started from. -/
theorem vopLookup_node (a : Alloc) (n : Node) (path : List UInt8) :
    Yields (k.vopLookup a n path) fun x => ∀ p, x.1 = .ok p → p = n ∨ ∃ ino, p = .sfs ino := by
  cases n with
  | sfs ino =>
    refine .ite (fun _ => ?_) fun _ => .error _
    rw [Kernel.sfsLookup]
    refine (Yields.self _).bind fun _ _ => .ite (fun _ => (Yields.self _).bind fun _ _ => .ok fun p hp => by cases hp)
      fun _ => ?_
    have honce : Yields ((k.refInc (.sfs ino)).sfsLookupOnce a ino path) fun x =>
        ∀ p, x.1 = .ok p → ∃ ino, p = .sfs ino := by
      rw [Kernel.sfsLookupOnce]
      refine (Yields.self _).bind fun x _ => .ite (fun _ => .ok fun p hp => by cases hp) fun _ => ?_
      exact (sfsLoadInode_node a _).mono fun y hy p hp => ⟨_, hy p hp⟩
    exact honce.bind fun x hx => (Yields.self _).bind fun _ _ => .ok fun p hp => .inr (hx p hp)
  | dev devname =>
    exact .ite (fun _ => .ok fun p hp => by cases hp) fun _ => .ok fun p hp => .inl (Except.ok.inj hp).symm

/-- A device that `vfs_lookup` gives is in `vdev_list`. -/
theorem vfsLookup_known (h : Rooted k) (a b : Alloc) (path : List UInt8) :
    Yields (k.vfsLookup a b path) fun x => ∀ n, x.1 = .ok n → Known k n := by
  rw [Kernel.vfsLookup]
  refine (getDevice_isStart a path).bind fun x hx => ?_
  obtain ⟨r, k₁⟩ := x
  cases r with
  | error ret => exact .ok fun n hn => by cases hn
  | ok start =>
    have hknown : Known k start.2 := (hx start.1 start.2 rfl).known h
    refine .ite (fun _ => ?_) fun _ => .ok fun n hn => Except.ok.inj hn ▸ hknown
    refine (vopLookup_node b start.2 start.1).bind fun y hy => (Yields.self _).bind fun _ _ => .ok fun n hn => ?_
    rcases hy n hn with rfl | ⟨ino, rfl⟩
    · exact hknown
    · exact fun devname hdev => by cases hdev

/-! ### The working directory -/

/-- The loop of `sfs_namefile` has one reference, to the inode where it is. -/
structure Climbs (k : Kernel) (s : Climb) : Prop where
  kept : Kept k s.kernel
  refs : s.kernel.refCount = incRef k.refCount (.sfs s.node)

/-- All references that were taken since `k` have been given back. -/
structure Same (k k' : Kernel) : Prop where
  kept : Kept k k'
  refs : k'.refCount = k.refCount

variable {s : Climb}

theorem Climbs.failed (h : Climbs k s) (ret : ℤ) :
    Yields (s.failed ret) fun x => x.1 = some ret ∧ Same k x.2.kernel := by
  rw [Climb.failed]
  exact (refDec_incRef h.kept h.refs fun _ => le_rfl).bind fun k' hk' => .ok ⟨rfl, hk'.1, hk'.2⟩

/-- One round goes on at the parent, or ends. -/
theorem Climbs.round (h : Climbs k s) (a : Alloc) : Yields (s.round a) fun x =>
    x.1 = none ∧ Climbs k x.2 ∨ x.1 ≠ none ∧ Same k x.2.kernel := by
  have hend : ∀ {s : Climb}, Climbs k s → ∀ ret, Yields (s.failed ret) fun x =>
      x.1 = none ∧ Climbs k x.2 ∨ x.1 ≠ none ∧ Same k x.2.kernel := fun h ret =>
    (h.failed ret).mono fun x hx => Or.inr ⟨by rw [hx.1]; exact Option.some_ne_none _, hx.2⟩
  have hle : ∀ p, k.refCount p ≤ s.kernel.refCount p := fun p => by
    rw [h.refs]
    exact le_incRef
  rw [Climb.round]
  refine (sfsLookupOnce_found h.kept.tidy a _ _).bind fun x hx => ?_
  obtain ⟨r, k₁⟩ := x
  have hkept := h.kept.trans hle hx.kept
  cases hx with
  | error _ hrefs => exact hend ⟨hkept, hrefs.trans h.refs⟩ _
  | @found node _ _ hrefs =>
    cases node with
    | dev devname => exact .error _
    | sfs parent =>
      rw [h.refs, incRef_comm] at hrefs
      refine (refDec_incRef hkept hrefs fun _ => le_incRef).bind fun k₂ hk₂ => .ite (fun hroot => ?_) fun _ => ?_
      · rw [← hroot] at hk₂
        exact (refDec_incRef hk₂.1 hk₂.2 fun _ => le_rfl).bind fun k₃ hk₃ =>
          .ok (Or.inr ⟨Option.some_ne_none _, hk₃.1, hk₃.2⟩)
      refine (Yields.self _).bind fun _ _ => (sfsDirentFindino_type _ _ _ _).bind fun y hy => ?_
      have hup : ∀ mem entry ptr resid, Climbs k
          ⟨{ k₂ with mount := k₂.mount.setInode parent y.2.1 y.2.2.1 }, mem, parent, entry, ptr, resid⟩ := by
        intro mem entry ptr resid
        refine ⟨hk₂.1.trans (fun p => ?_) (hk₂.1.tidy.setInode hy), hk₂.2⟩
        rw [hk₂.2]
        exact le_incRef
      exact .ite (fun _ => hend (hup _ _ _ _) _) fun _ => .ite (fun _ => hend (hup _ _ _ _) _) fun _ =>
        .ok (Or.inl ⟨rfl, hup _ _ _ _⟩)

theorem Climbs.loop (allocs : ℕ → Alloc) (rounds i : ℕ) (h : Climbs k s) :
    Yields (Climb.loop allocs rounds i s) fun o => ∀ x, o = some x → Same k x.2.kernel := by
  induction rounds generalizing i s with
  | zero => exact .ok fun _ hx => by cases hx
  | succ rounds ih =>
    rw [Climb.loop]
    refine (h.round _).bind fun x hx => ?_
    obtain ⟨o, s'⟩ := x
    cases o with
    | none =>
      rcases hx with ⟨-, hs'⟩ | ⟨hne, -⟩
      · exact ih (i + 1) hs'
      · exact absurd rfl hne
    | some ret =>
      rcases hx with ⟨hnone, -⟩ | ⟨-, hs'⟩
      · cases hnone
      · refine .ok fun y hy => ?_
        cases hy
        exact hs'

theorem sfsNamefile_same (h : Tidy k) (allocs : ℕ → Alloc) (rounds : ℕ) (entry : Option Mem) (mem : Mem)
    (hino : 0 < k.refCount (.sfs ino)) (iob : Iobuf) :
    Yields (k.sfsNamefile allocs rounds entry mem ino iob) fun o => ∀ x, o = some x → Same k x.2.1 := by
  have hret : ∀ {y : ℤ × Kernel × Mem × Iobuf}, Same k y.2.1 →
      Yields (.ok (some y) : PathRet) fun o => ∀ x, o = some x → Same k x.2.1 := by
    intro y hy
    refine .ok fun x hx => ?_
    cases hx
    exact hy
  rw [Kernel.sfsNamefile.eq_def]
  refine .ite (fun _ => hret ⟨h.kept, rfl⟩) fun _ => ?_
  cases entry with
  | none => exact hret ⟨h.kept, rfl⟩
  | some entry =>
    have hstart : Climbs k ⟨k.refInc (.sfs ino), mem, ino, entry, iob.ioBase + iob.ioResid,
        iob.ioResid - 2⟩ := ⟨h.refInc fun _ _ => hino, rfl⟩
    refine (hstart.loop allocs rounds 0).bind fun o ho => ?_
    cases o with
    | none => exact .ok fun _ hx => by cases hx
    | some x =>
      have hx := ho x rfl
      obtain ⟨ret, s'⟩ := x
      exact .ite (fun _ => hret hx) fun _ => (Yields.self _).bind fun _ _ => hret hx

/-- **`vfs_getcwd`** -/
theorem vfsGetcwd_same (h : Rooted k) (allocs : ℕ → Alloc) (rounds : ℕ) (entry : Option Mem) (mem : Mem)
    (iob : Iobuf) :
    Yields (k.vfsGetcwd allocs rounds entry mem iob) fun o => ∀ x, o = some x → Same k x.2.1 := by
  have hcur := vfsGetCurdir_found h
  rw [Kernel.vfsGetcwd]
  generalize k.vfsGetCurdir = cur at hcur
  obtain ⟨r, k₁⟩ := cur
  cases hcur with
  | error hkept hrefs =>
    refine .ok fun x hx => ?_
    cases hx
    exact ⟨hkept, hrefs⟩
  | @found node _ hkept hrefs =>
    cases node with
    | dev devname => exact .error _
    | sfs ino =>
      have hout : ∀ {k₂ : Kernel}, Same k₁ k₂ → ∀ ret mem iob, Yields (k₂.getcwdOut ino ret mem iob) fun o =>
          ∀ x, o = some x → Same k x.2.1 := by
        intro k₂ hsame ret mem iob
        have hle : ∀ p, k.refCount p ≤ k₁.refCount p := fun p => by
          rw [hrefs]
          exact le_incRef
        rw [Kernel.getcwdOut]
        refine (refDec_incRef (hkept.trans hle hsame.kept) (hsame.refs.trans hrefs) fun _ => le_rfl).bind
          fun k₃ hk₃ => .ok fun x hx => ?_
        cases hx
        exact ⟨hk₃.1, hk₃.2⟩
      have hsame : Same k₁ k₁ := ⟨hkept.tidy.kept, rfl⟩
      have hpos : 0 < k₁.refCount (.sfs ino) := by
        rw [hrefs, incRef_self]
        exact Nat.succ_pos _
      dsimp only
      cases vfsGetDevname k₁.vdevList with
      | none => exact .error _
      | some devname =>
        refine (Yields.self _).bind fun x _ => .ite (fun _ => hout hsame _ _ _) fun _ =>
          (Yields.self _).bind fun y _ => .ite (fun _ => hout hsame _ _ _) fun _ => ?_
        rw [Kernel.vopNamefile]
        refine ((Yields.self _).bind fun _ _ => sfsNamefile_same hkept.tidy allocs rounds entry _ hpos _).bind
          fun o ho => ?_
        cases o with
        | none => exact .ok fun _ hx => by cases hx
        | some z => exact hout (ho z rfl) _ _ _

end Ucore.Filesys
