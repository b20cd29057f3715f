import Ucore.Vfs.Model

/-!
# Directories in memory

`Loaded k g` says that the file system of `k` has the directories of the naming graph `g`, and that the
inodes in memory are those with references.  Directories are never dirty, so that dropping one and
loading it again changes nothing.

* `Kernel.refDec_spec`, `Kernel.sfsLoadInode_spec` and `Kernel.sfsLookupOnce_spec` say what the
  operations do to the counts, and keep the rest.
-/

namespace Ucore.Vfs

open Sfs NameGraph Function

/-- Names and inode numbers. -/
abbrev Dirs := NameGraph.Graph ℕ (List UInt8)

/-- The inode `d` is a directory with these slots, on the disk and, if it is loaded, in memory. -/
structure DirIn (m : Mount) (d : ℕ) (slots : List (ℕ × List UInt8)) : Prop where
  inUse : InUse m.fs d
  links : decodeLinks (m.fs.disk d) ≠ 0
  dir : DirIs m.fs ⟨decodeInode (m.fs.disk d), d, false⟩ slots
  loaded : d ∈ m.inodeList → m.inode d = ⟨decodeInode (m.fs.disk d), d, false⟩ ∧
    m.nlinks d = decodeLinks (m.fs.disk d)

/-- The inode `f` is a regular file. -/
structure FileIn (m : Mount) (f : ℕ) : Prop where
  stored : f ∉ m.inodeList → InUse m.fs f ∧ decodeLinks (m.fs.disk f) ≠ 0 ∧
    (decodeInode (m.fs.disk f)).type = SFS_TYPE_FILE
  loaded : f ∈ m.inodeList → (m.inode f).din.type = SFS_TYPE_FILE

/-- The file system has the directories of the graph, and what they name. -/
structure Holds (m : Mount) (g : Dirs) : Prop where
  dir : ∀ d es, g d = some es → ∃ slots, live slots = es ∧ DirIn m d slots
  file : ∀ d es, g d = some es → ∀ e ∈ es, g e.1 = none → FileIn m e.1
  root : (g SFS_BLKN_ROOT).isSome

structure Loaded (g : Dirs) (k : Kernel) : Prop where
  holds : Holds k.mount g
  nodup : k.mount.inodeList.Nodup
  refs : ∀ ino, 0 < k.refCount (.sfs ino) ↔ ino ∈ k.mount.inodeList

/-- What the operations keep. -/
structure Keeps (g : Dirs) (k k' : Kernel) : Prop where
  loaded : Loaded g k'
  fs : k'.mount.fs = k.mount.fs
  vdevList : k'.vdevList = k.vdevList
  bootfs : k'.bootfs = k.bootfs
  pwd : k'.pwd = k.pwd

variable {g : Dirs} {k k' k'' : Kernel} {m : Mount} {d ino : ℕ} {n p : Node} {a : Alloc}
  {es slots : List (ℕ × List UInt8)} {name : List UInt8} {r : Node → ℕ}

theorem Loaded.keeps (h : Loaded g k) : Keeps g k k := ⟨h, rfl, rfl, rfl, rfl⟩

theorem Keeps.trans (h : Keeps g k k') (h' : Keeps g k' k'') : Keeps g k k'' :=
  ⟨h'.loaded, h'.fs.trans h.fs, h'.vdevList.trans h.vdevList, h'.bootfs.trans h.bootfs,
    h'.pwd.trans h.pwd⟩

/-! ### Counts -/

theorem incRef_self : incRef r n n = r n + 1 := update_self n _ r

theorem incRef_of_ne (h : p ≠ n) : incRef r n p = r p := update_of_ne h _ r

theorem decRef_self : decRef r n n = r n - 1 := update_self n _ r

theorem decRef_of_ne (h : p ≠ n) : decRef r n p = r p := update_of_ne h _ r

theorem decRef_incRef : decRef (incRef r n) n = r := by
  funext p
  by_cases hp : p = n
  · rw [hp, decRef_self, incRef_self, Nat.add_sub_cancel]
  · rw [decRef_of_ne hp, incRef_of_ne hp]

theorem incRef_comm : incRef (incRef r n) p = incRef (incRef r p) n := by
  funext q
  by_cases hn : q = n
  · by_cases hp : q = p
    · rw [← hn, ← hp]
    · rw [incRef_of_ne hp, hn, incRef_self, incRef_self, incRef_of_ne (hn ▸ hp)]
  · rw [incRef_of_ne hn]
    by_cases hp : q = p
    · rw [hp, incRef_self, incRef_self, incRef_of_ne (hp ▸ hn)]
    · rw [incRef_of_ne hp, incRef_of_ne hp, incRef_of_ne hn]

theorem le_incRef : r p ≤ incRef r n p := by
  by_cases hp : p = n
  · rw [hp, incRef_self]
    exact Nat.le_succ _
  · rw [incRef_of_ne hp]

/-! ### References -/

theorem Loaded.refInc (h : Loaded g k) (hn : 0 < k.refCount n) : Loaded g (k.refInc n) := by
  refine ⟨h.holds, h.nodup, fun ino => Iff.trans ?_ (h.refs ino)⟩
  show 0 < incRef k.refCount n (.sfs ino) ↔ _
  by_cases hsame : Node.sfs ino = n
  · subst hsame
    rw [incRef_self]
    exact iff_of_true (Nat.succ_pos _) hn
  · rw [incRef_of_ne hsame]

theorem Loaded.keeps_refInc (h : Loaded g k) (hn : 0 < k.refCount n) : Keeps g k (k.refInc n) :=
  ⟨h.refInc hn, rfl, rfl, rfl, rfl⟩

/-- An inode that is not the one that is reclaimed. -/
theorem FileIn.erase (h : FileIn m ino) (hne : ino ≠ d) :
    FileIn { m with inodeList := m.inodeList.erase d } ino := by
  refine ⟨fun hnot => h.stored fun hin => hnot ?_, fun hin => h.loaded (List.mem_of_mem_erase hin)⟩
  exact (List.mem_erase_of_ne hne).mpr hin

/-- A directory goes from memory. -/
theorem Holds.erase (h : Holds m g) (hd : (g d).isSome) :
    Holds { m with inodeList := m.inodeList.erase d } g := by
  refine ⟨?_, ?_, h.root⟩
  · intro e es he
    obtain ⟨slots, hlive, hdir⟩ := h.dir e es he
    exact ⟨slots, hlive, hdir.inUse, hdir.links, hdir.dir,
      fun hin => hdir.loaded (List.mem_of_mem_erase hin)⟩
  · intro e es he x hx hnone
    refine (h.file e es he x hx hnone).erase ?_
    rintro rfl
    rw [hnone] at hd
    exact Bool.false_ne_true hd

/-- A clean directory is dropped. -/
theorem sfsReclaim_dir (h : DirIn m d slots) (hin : d ∈ m.inodeList) :
    sfsReclaim m d = .ok (0, { m with inodeList := m.inodeList.erase d }) := by
  obtain ⟨hinode, hlinks⟩ := h.loaded hin
  have hne : m.nlinks d ≠ 0 := hlinks ▸ h.links
  have hclean : (m.inode d).dirty = false := by rw [hinode]
  have hsync : sfsFsync m d = .ok m := by
    rw [sfsFsync]
    exact if_neg (by rw [hclean]; decide)
  rw [sfsReclaim, if_neg hne, ok_bind]
  dsimp only
  rw [if_neg (not_not.mpr rfl), hsync, ok_bind]
  exact if_neg hne

/-- **`vop_ref_dec`** of one of several references, or of a directory. -/
theorem Kernel.refDec_spec (h : Loaded g k) (hpos : 0 < k.refCount n)
    (hsafe : 2 ≤ k.refCount n ∨ ∃ d, n = .sfs d ∧ (g d).isSome) :
    ∃ k', k.refDec n = .ok k' ∧ Keeps g k k' ∧ k'.refCount = decRef k.refCount n := by
  have hrefs : ∀ ino, Node.sfs ino ≠ n → (0 < decRef k.refCount n (.sfs ino) ↔
      ino ∈ k.mount.inodeList) := by
    intro ino hne
    rw [decRef_of_ne hne]
    exact h.refs ino
  have hself : decRef k.refCount n n = k.refCount n - 1 := decRef_self
  rw [Kernel.refDec, ensure_pos hpos, ok_bind]
  dsimp only
  by_cases hlast : decRef k.refCount n n = 0
  · obtain ⟨d, rfl, hd⟩ := hsafe.resolve_left (by omega)
    obtain ⟨es, hes⟩ := Option.isSome_iff_exists.mp hd
    obtain ⟨slots, -, hdir⟩ := h.holds.dir d es hes
    rw [if_pos hlast]
    dsimp only
    rw [sfsReclaim_dir hdir ((h.refs d).mp hpos), ok_bind]
    refine ⟨_, rfl, ⟨⟨h.holds.erase hd, h.nodup.erase d, fun ino => ?_⟩, rfl, rfl, rfl, rfl⟩, rfl⟩
    show 0 < decRef k.refCount (.sfs d) (.sfs ino) ↔ ino ∈ k.mount.inodeList.erase d
    rw [h.nodup.mem_erase_iff]
    by_cases hsame : ino = d
    · subst hsame
      rw [hlast]
      exact iff_of_false (lt_irrefl 0) fun hin => hin.1 rfl
    · rw [hrefs ino fun heq => hsame (Node.sfs.inj heq)]
      exact ⟨fun hin => ⟨hsame, hin⟩, fun hin => hin.2⟩
  · rw [if_neg hlast]
    refine ⟨_, rfl, ⟨⟨h.holds, h.nodup, fun ino => ?_⟩, rfl, rfl, rfl, rfl⟩, rfl⟩
    by_cases hsame : Node.sfs ino = n
    · subst hsame
      exact iff_of_true (Nat.pos_of_ne_zero hlast) ((h.refs ino).mp hpos)
    · exact hrefs ino hsame

/-! ### Loading -/

/-- A directory, or a name in one. -/
def Named (g : Dirs) (ino : ℕ) : Prop := (g ino).isSome ∨ ∃ d es name, g d = some es ∧ (ino, name) ∈ es

theorem Holds.named (h : Holds m g) (hino : Named g ino) :
    (∃ slots, DirIn m ino slots) ∨ g ino = none ∧ FileIn m ino := by
  cases hdir : g ino with
  | some es =>
    obtain ⟨slots, -, hin⟩ := h.dir ino es hdir
    exact Or.inl ⟨slots, hin⟩
  | none =>
    obtain hsome | ⟨d, es, name, hes, hmem⟩ := hino
    · rw [hdir] at hsome
      exact absurd hsome Bool.false_ne_true
    · exact Or.inr ⟨rfl, h.file d es hes _ hmem hdir⟩

/-- What is read of the block of an inode that is not in memory. -/
theorem Holds.stored (h : Holds m g) (hino : Named g ino) (hnot : ino ∉ m.inodeList) :
    InUse m.fs ino ∧ decodeLinks (m.fs.disk ino) ≠ 0 ∧
      ((decodeInode (m.fs.disk ino)).type = SFS_TYPE_DIR ∨
        (decodeInode (m.fs.disk ino)).type = SFS_TYPE_FILE) := by
  rcases h.named hino with ⟨slots, hdir⟩ | ⟨-, hfile⟩
  · exact ⟨hdir.inUse, hdir.links, Or.inl hdir.dir.type⟩
  · obtain ⟨huse, hlinks, htype⟩ := hfile.stored hnot
    exact ⟨huse, hlinks, Or.inr htype⟩

/-- The inode in memory after it is loaded. -/
def loadedMount (m : Mount) (ino : ℕ) : Mount :=
  { m.setInode ino m.fs ⟨decodeInode (m.fs.disk ino), ino, false⟩ with
    inodeList := ino :: m.inodeList
    nlinks := update m.nlinks ino (decodeLinks (m.fs.disk ino)) }

theorem Holds.fsOk (h : Holds m g) : FsOk m.fs := by
  obtain ⟨es, hes⟩ := Option.isSome_iff_exists.mp h.root
  obtain ⟨slots, -, hdir⟩ := h.dir _ es hes
  exact hdir.dir.file.ok

theorem sfsRbuf_inode (hino : InUse m.fs ino) :
    sfsRbuf m.fs sizeofDiskInode ino 0 = .ok (m.fs.disk ino) := by
  rw [sfsRbuf_spec hino (by decide) (by decide)]
  refine congrArg Except.ok (funext fun i => ?_)
  rw [Nat.zero_add]

theorem Holds.load (h : Holds m g) (hino : Named g ino) (hnot : ino ∉ m.inodeList) :
    Sfs.sfsLoadInode m ino = .ok (loadedMount m ino) := by
  obtain ⟨huse, hlinks, htype⟩ := h.stored hino hnot
  rw [Sfs.sfsLoadInode, if_neg hnot, assertInuse_spec h.fsOk huse, ok_bind, sfsRbuf_inode huse,
    ok_bind, ensure_pos hlinks, ok_bind]
  dsimp only
  rw [ensure_pos htype, ok_bind]
  rfl

theorem Holds.loadedMount (h : Holds m g) (hino : Named g ino) (hnot : ino ∉ m.inodeList) :
    Holds (loadedMount m ino) g := by
  refine ⟨?_, ?_, h.root⟩
  · intro d es hes
    obtain ⟨slots, hlive, hdir⟩ := h.dir d es hes
    refine ⟨slots, hlive, hdir.inUse, hdir.links, hdir.dir, fun hin => ?_⟩
    by_cases hsame : d = ino
    · subst hsame
      exact ⟨update_self .., update_self ..⟩
    · obtain ⟨hinode, hlinks⟩ := hdir.loaded ((List.mem_cons.mp hin).resolve_left hsame)
      exact ⟨(update_of_ne hsame ..).trans hinode, (update_of_ne hsame ..).trans hlinks⟩
  · intro d es hes e he hnone
    have hfile := h.file d es hes e he hnone
    refine ⟨fun hout => hfile.stored fun hin => hout (List.mem_cons_of_mem _ hin), fun hin => ?_⟩
    by_cases hsame : e.1 = ino
    · have htype : (decodeInode (m.fs.disk ino)).type = SFS_TYPE_FILE :=
        hsame ▸ (hfile.stored (hsame ▸ hnot)).2.2
      show (update m.inode ino _ e.1).din.type = _
      rw [hsame, update_self]
      exact htype
    · show (update m.inode ino _ e.1).din.type = _
      rw [update_of_ne hsame]
      exact hfile.loaded ((List.mem_cons.mp hin).resolve_left hsame)

/-- What a call of `kmalloc` gives: the error for want of memory is returned only then. -/
def Alloc.Succeeds (a : Alloc) : Prop := a.entry.isSome ∧ a.din = true ∧ a.node = true

def faultCode : Fault → ℤ
  | .notDir => -E_NOTDIR
  | .noEntry => -E_NOENT

/-- A result of a lookup that is to give `spec`: one more reference to the inode found, or the error
with the counts as they were.  Without memory the call may fail. -/
inductive Resolves (g : Dirs) (k : Kernel) (succeeds : Prop) (spec : Except Fault ℕ) :
    Ret Node × Kernel → Prop
  | found {ino : ℕ} {k' : Kernel} (hspec : spec = .ok ino) (hkeeps : Keeps g k k')
      (hrefs : k'.refCount = incRef k.refCount (.sfs ino)) :
      Resolves g k succeeds spec (.ok (.sfs ino), k')
  | fault {f : Fault} {k' : Kernel} (hspec : spec = .error f) (hkeeps : Keeps g k k')
      (hrefs : k'.refCount = k.refCount) : Resolves g k succeeds spec (.error (faultCode f), k')
  | noMem {k' : Kernel} (hfails : ¬ succeeds) (hkeeps : Keeps g k k')
      (hrefs : k'.refCount = k.refCount) : Resolves g k succeeds spec (.error (-E_NO_MEM), k')

theorem Resolves.imp {s s' : Prop} {spec : Except Fault ℕ} {r : Ret Node × Kernel} (hs : s' → s)
    (h : Resolves g k s spec r) : Resolves g k s' spec r := by
  cases h with
  | found hspec hkeeps hrefs => exact .found hspec hkeeps hrefs
  | fault hspec hkeeps hrefs => exact .fault hspec hkeeps hrefs
  | noMem hfails hkeeps hrefs => exact .noMem (fun h' => hfails (hs h')) hkeeps hrefs

/-- An inode without references is not in memory. -/
theorem Loaded.refs_zero (h : Loaded g k) (hnot : ino ∉ k.mount.inodeList) :
    k.refCount (.sfs ino) = 0 := by
  by_contra hne
  exact hnot ((h.refs ino).mp (Nat.pos_of_ne_zero hne))

/-- **`sfs_load_inode`** gives a reference to the inode. -/
theorem Kernel.sfsLoadInode_spec (h : Loaded g k) (a : Alloc) (hino : Named g ino) :
    ∃ r, k.sfsLoadInode a ino = .ok r ∧
      Resolves g k (a.din = true ∧ a.node = true ∨ ino ∈ k.mount.inodeList) (.ok ino) r := by
  rw [Kernel.sfsLoadInode]
  by_cases hin : ino ∈ k.mount.inodeList
  · rw [if_pos hin]
    exact ⟨_, rfl, .found rfl (h.keeps_refInc ((h.refs ino).mpr hin)) rfl⟩
  rw [if_neg hin]
  by_cases hdin : a.din = false
  · rw [if_pos hdin]
    exact ⟨_, rfl, .noMem (by simp [hdin, hin]) h.keeps rfl⟩
  rw [if_neg hdin]
  obtain ⟨huse, hlinks, -⟩ := h.holds.stored hino hin
  by_cases hnode : a.node = false
  · rw [if_pos hnode, assertInuse_spec h.holds.fsOk huse, ok_bind, sfsRbuf_inode huse, ok_bind,
      ensure_pos hlinks, ok_bind]
    exact ⟨_, rfl, .noMem (by simp [hnode, hin]) h.keeps rfl⟩
  · rw [if_neg hnode, h.holds.load hino hin, ok_bind]
    have hrefs : update k.refCount (.sfs ino) 1 = incRef k.refCount (.sfs ino) := by
      rw [incRef, h.refs_zero hin]
    refine ⟨_, rfl, .found rfl ⟨⟨h.holds.loadedMount hino hin, h.nodup.cons hin, fun j => ?_⟩, rfl, rfl,
      rfl, rfl⟩ hrefs⟩
    show 0 < update k.refCount (.sfs ino) 1 (.sfs j) ↔ j ∈ ino :: k.mount.inodeList
    rw [List.mem_cons]
    by_cases hsame : j = ino
    · subst hsame
      rw [update_self]
      exact iff_of_true Nat.one_pos (Or.inl rfl)
    · rw [update_of_ne fun heq => hsame (Node.sfs.inj heq), h.refs j]
      exact ⟨Or.inr, fun hmem => hmem.resolve_left hsame⟩

/-- A directory with references, in memory. -/
theorem Loaded.dirIs (h : Loaded g k) (hes : g d = some es) (hin : 0 < k.refCount (.sfs d)) :
    ∃ slots, live slots = es ∧ DirIs k.mount.fs (k.mount.inode d) slots ∧ (k.mount.inode d).ino = d := by
  obtain ⟨slots, hlive, hdir⟩ := h.holds.dir d es hes
  obtain ⟨hinode, -⟩ := hdir.loaded ((h.refs d).mp hin)
  rw [hinode]
  exact ⟨slots, hlive, hdir.dir, rfl⟩

theorem setInode_self : m.setInode d m.fs (m.inode d) = m := by
  rw [Mount.setInode, update_eq_self]

/-- **`sfs_lookup_once`** looks up one name. -/
theorem Kernel.sfsLookupOnce_spec (h : Loaded g k) (a : Alloc) (hd : (g d).isSome)
    (hin : 0 < k.refCount (.sfs d)) (hname : name.length ≤ SFS_MAX_FNAME_LEN) :
    ∃ r, k.sfsLookupOnce a d name = .ok r ∧ Resolves g k a.Succeeds (lookup g d name) r := by
  obtain ⟨es, hes⟩ := Option.isSome_iff_exists.mp hd
  obtain ⟨slots, rfl, hsin, -⟩ := h.dirIs hes hin
  rw [Kernel.sfsLookupOnce]
  cases hentry : a.entry with
  | none =>
    rw [sfsDirentSearch, ensure_pos hname, ok_bind]
    dsimp only
    rw [ok_bind, setInode_self]
    exact ⟨_, rfl, .noMem (by simp [Alloc.Succeeds, hentry]) h.keeps rfl⟩
  | some entry =>
    obtain ⟨r, hsearch, hfinds⟩ := sfsDirentSearch_spec hsin hname entry
    rw [hsearch, ok_bind]
    dsimp only
    rw [setInode_self]
    cases hfind : (live slots).find? fun e => e.2 = name with
    | none =>
      have hlookup : lookup g d name = .error .noEntry := by simp only [lookup, hes, hfind]
      rw [Finds, hfind] at hfinds
      rw [hfinds.1, if_pos (by decide)]
      exact ⟨_, rfl, .fault hlookup h.keeps rfl⟩
    | some e =>
      have hlookup : lookup g d name = .ok e.1 := by simp only [lookup, hes, hfind]
      rw [Finds, hfind] at hfinds
      obtain ⟨hret, hino⟩ := hfinds
      have hnamed : Named g e.1 := Or.inr ⟨d, _, e.2, hes, List.mem_of_find?_eq_some hfind⟩
      obtain ⟨r', hload, hres⟩ := Kernel.sfsLoadInode_spec h a hnamed
      rw [if_neg (not_not.mpr hret), hino, Option.getD_some, hload, hlookup]
      exact ⟨r', rfl, hres.imp fun hs => Or.inl ⟨hs.2.1, hs.2.2⟩⟩

end Ucore.Vfs
