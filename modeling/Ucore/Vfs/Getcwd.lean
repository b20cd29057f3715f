import Ucore.Vfs.Lookup

/-!
# The working directory as a path (`sfs_namefile` and `vfs_getcwd` of lab8)

`sfs_namefile` goes up from a directory to the root.  In each round it looks up `..`, finds the entry
for the directory in its parent, and puts the name of it in front of what it has already, from the end
of the buffer downwards.  At the root it moves the result to the start.

* `Climb.round_root` and `Climb.round_child` say what a round does, and `Climb.climb_spec` what the loop
  does.
* **`getcwd_path`**: the buffer has the path, or there was not enough memory or room.  Nothing is
  written outside of the buffer, and all references are given back.

The buffer does not wrap around the address space: its addresses are numbers.  The length of a `List` of
bytes is what `strlen` computes.
-/

namespace Ucore.Vfs

open Sfs Memory NameGraph Function

/-- `"."` -/
def dotName : List UInt8 := [46]

/-- `".."` -/
def dotdotName : List UInt8 := [46, 46]

/-! ### Buffers -/

/-- `struct iobuf` -/
structure Iobuf where
  ioBase : ℕ
  ioOffset : ℤ
  ioLen : ℕ
  ioResid : ℕ

/-- `iobuf_init` -/
def iobufInit (base len : ℕ) (offset : ℤ) : Iobuf := ⟨base, offset, len, len⟩

/-- `iobuf_skip` -/
def iobufSkip (iob : Iobuf) (n : ℕ) : Except Panic Iobuf := do
  ensure (n ≤ iob.ioResid) .assertion
  .ok { iob with
    ioBase := iob.ioBase + n
    ioOffset := iob.ioOffset + n
    ioResid := iob.ioResid - n }

/-- `iobuf_move` of a string into the buffer: the result, the memory and the buffer. -/
def iobufMove (mem : Mem) (iob : Iobuf) (data : List UInt8) : Except Panic (ℤ × Mem × Iobuf) := do
  let alen := if iob.ioResid > data.length then data.length else iob.ioResid
  let ret := if data.length - alen = 0 then 0 else -E_NO_MEM
  if alen > 0 then
    let iob' ← iobufSkip iob alen
    .ok (ret, store mem iob.ioBase (data.take alen), iob')
  else .ok (ret, mem, iob)

/-! ### `sfs_namefile` -/

/-- The variables of the loop of `sfs_namefile`, with the kernel and the memory. -/
structure Climb where
  kernel : Kernel
  mem : Mem
  node : ℕ
  /-- `*entry` -/
  entry : Mem
  ptr : ℕ
  resid : ℕ

/-- `failed:` -/
def Climb.failed (s : Climb) (ret : ℤ) : Except Panic (Option ℤ × Climb) := do
  let k ← s.kernel.refDec (.sfs s.node)
  .ok (some ret, { s with kernel := k })

/-- One round: `none` when the loop goes on, otherwise `ret`. -/
def Climb.round (s : Climb) (a : Alloc) : Except Panic (Option ℤ × Climb) := do
  match ← s.kernel.sfsLookupOnce a s.node dotdotName with
  | (.error ret, k) => Climb.failed { s with kernel := k } ret
  | (.ok (.dev _), _) => .error .assertion
  | (.ok (.sfs parent), k) =>
    let ino := (k.mount.inode s.node).ino
    let k ← k.refDec (.sfs s.node)
    if s.node = parent then
      let k ← k.refDec (.sfs s.node)
      .ok (some 0, { s with kernel := k })
    else
      let sin := k.mount.inode parent
      ensure (ino ≠ sin.ino ∧ sin.din.type = SFS_TYPE_DIR) .assertion
      let (ret, fs, sin, entry) ← sfsDirentFindino k.mount.fs sin ino s.entry
      let s := { s with
        kernel := { k with mount := k.mount.setInode parent fs sin }
        node := parent
        entry := entry }
      let name := cString entry offsetName (SFS_MAX_FNAME_LEN + 1)
      let alen := name.length + 1
      if ret ≠ 0 then s.failed ret
      else if alen > s.resid then s.failed (-E_NO_MEM)
      else .ok (none, { s with
        mem := store s.mem (s.ptr - alen) (name ++ [slashChar])
        ptr := s.ptr - alen
        resid := s.resid - alen })

/-- The loop, for a number of rounds; `allocs` has what `kmalloc` returns in each. -/
def Climb.loop (allocs : ℕ → Alloc) : ℕ → ℕ → Climb → Except Panic (Option (ℤ × Climb))
  | 0, _, _ => .ok none
  | rounds + 1, i, s => do
    match ← s.round (allocs i) with
    | (some ret, s) => .ok (some (ret, s))
    | (none, s) => Climb.loop allocs rounds (i + 1) s

/-- What a call for a path returns, `none` when the loop has not ended. -/
abbrev PathRet := Except Panic (Option (ℤ × Kernel × Mem × Iobuf))

/-- The end of `sfs_namefile`. -/
def Climb.out (s : Climb) (ret : ℤ) (iob : Iobuf) : PathRet :=
  if ret ≠ 0 then .ok (some (ret, s.kernel, s.mem, iob))
  else do
    let alen := iob.ioResid - s.resid - 2
    let ptr := iob.ioBase + 1
    let mem := memcpy s.mem ptr (fun i => s.mem (s.ptr + i)) alen
    let iob ← iobufSkip iob alen
    .ok (some (0, s.kernel, update (update mem (ptr - 1) slashChar) (ptr + alen) 0, iob))

/-- `sfs_namefile`; `entry` is what `kmalloc` returned. -/
def Kernel.sfsNamefile (k : Kernel) (allocs : ℕ → Alloc) (rounds : ℕ) (entry : Option Mem) (mem : Mem)
    (ino : ℕ) (iob : Iobuf) : PathRet :=
  if iob.ioResid ≤ 2 then .ok (some (-E_NO_MEM, k, mem, iob))
  else match entry with
  | none => .ok (some (-E_NO_MEM, k, mem, iob))
  | some entry => do
    match ← Climb.loop allocs rounds 0
      ⟨k.refInc (.sfs ino), mem, ino, entry, iob.ioBase + iob.ioResid, iob.ioResid - 2⟩ with
    | none => .ok none
    | some (ret, s) => s.out ret iob

/-! ### `vfs_getcwd` -/

/-- `vfs_get_devname`, of the file system. -/
def vfsGetDevname (vdevList : List VfsDev) : Option (List UInt8) :=
  (vdevList.find? fun vdev => vdev.fs).map VfsDev.devname

/-- `vop_namefile`, which only directories have. -/
def Kernel.vopNamefile (k : Kernel) (allocs : ℕ → Alloc) (rounds : ℕ) (entry : Option Mem) (mem : Mem)
    (ino : ℕ) (iob : Iobuf) : PathRet := do
  ensure ((k.mount.inode ino).din.type = SFS_TYPE_DIR) .assertion
  k.sfsNamefile allocs rounds entry mem ino iob

/-- `out:` -/
def Kernel.getcwdOut (k : Kernel) (ino : ℕ) (ret : ℤ) (mem : Mem) (iob : Iobuf) : PathRet := do
  let k ← k.refDec (.sfs ino)
  .ok (some (ret, k, mem, iob))

/-- `vfs_getcwd`. -/
def Kernel.vfsGetcwd (k : Kernel) (allocs : ℕ → Alloc) (rounds : ℕ) (entry : Option Mem) (mem : Mem)
    (iob : Iobuf) : PathRet :=
  match k.vfsGetCurdir with
  | (.error ret, k) => .ok (some (ret, k, mem, iob))
  -- the inode of a device is in no file system
  | (.ok (.dev _), _) => .error .assertion
  | (.ok (.sfs ino), k) =>
    match vfsGetDevname k.vdevList with
    | none => .error .assertion
    | some devname => do
      let (ret, mem, iob) ← iobufMove mem iob devname
      if ret ≠ 0 then k.getcwdOut ino ret mem iob
      else
        let (ret, mem, iob) ← iobufMove mem iob [colonChar]
        if ret ≠ 0 then k.getcwdOut ino ret mem iob
        else
          match ← k.vopNamefile allocs rounds entry mem ino iob with
          | none => .ok none
          | some (ret, k, mem, iob) => k.getcwdOut ino ret mem iob

variable {g : Dirs} {k : Kernel} {s : Climb} {a : Alloc} {allocs : ℕ → Alloc} {d i : ℕ}
  {depth : ℕ → ℕ} {names : List (List UInt8)} {r : Node → ℕ} {mem : Mem}

/-! ### A round -/

/-- The names on a path, each with a slash. -/
def pathText (names : List (List UInt8)) : List UInt8 := names.flatMap fun name => name ++ [slashChar]

theorem pathText_snoc {name : List UInt8} :
    pathText (names ++ [name]) = pathText names ++ (name ++ [slashChar]) := by
  simp only [pathText, List.flatMap_append, List.flatMap_cons, List.flatMap_nil, List.append_nil]

/-- A directory tree of the file system. -/
abbrev Tree (g : Dirs) (depth : ℕ → ℕ) : Prop := IsTree g SFS_BLKN_ROOT dotName dotdotName depth

/-- The names on the path from the root to a directory. -/
abbrev DirPath (g : Dirs) (d : ℕ) (names : List (List UInt8)) : Prop :=
  PathTo g SFS_BLKN_ROOT dotName dotdotName d names

/-- The loop is at the directory `d`, with a reference to it besides those in `r`. -/
structure Climb.At (g : Dirs) (s : Climb) (d : ℕ) (r : Node → ℕ) : Prop where
  node : s.node = d
  loaded : Loaded g s.kernel
  refs : s.kernel.refCount = incRef r (.sfs d)
  room : s.resid ≤ s.ptr

/-- How the loop ends where it was to put `text` in front of what it has: with the references in `r`. -/
inductive Climb.Ends (g : Dirs) (s : Climb) (r : Node → ℕ) (succeeds : Prop) (text : List UInt8) :
    ℤ × Climb → Prop
  | top {s' : Climb} (hkeeps : Keeps g s.kernel s'.kernel) (hrefs : s'.kernel.refCount = r)
      (hptr : s'.ptr + text.length = s.ptr) (hresid : s'.resid + text.length = s.resid)
      (hmem : s'.mem = store s.mem s'.ptr text) : Ends g s r succeeds text (0, s')
  | noMem {s' : Climb} (hkeeps : Keeps g s.kernel s'.kernel) (hrefs : s'.kernel.refCount = r)
      (hwhy : succeeds → s.resid < text.length)
      (hmem : ∀ i, ¬ (s.ptr - s.resid ≤ i ∧ i < s.ptr) → s'.mem i = s.mem i) :
      Ends g s r succeeds text (-E_NO_MEM, s')

/-- The reference to the directory is given back. -/
theorem Climb.At.failed (h : s.At g d r) (hd : (g d).isSome) (ret : ℤ) :
    ∃ k', s.failed ret = .ok (some ret, { s with kernel := k' }) ∧ Keeps g s.kernel k' ∧
      k'.refCount = r := by
  obtain ⟨k', hdec, hkeeps, hrefs⟩ := Kernel.refDec_spec h.loaded (n := .sfs d)
    (by rw [h.refs, incRef_self]; exact Nat.succ_pos _) (Or.inr ⟨d, rfl, hd⟩)
  refine ⟨k', ?_, hkeeps, ?_⟩
  · rw [Climb.failed, h.node, hdec, ok_bind]
  · rw [hrefs, h.refs, decRef_incRef]

/-- **The root** is its own parent, and the loop ends. -/
theorem Climb.At.round_root (h : s.At g SFS_BLKN_ROOT r) (ht : Tree g depth) (a : Alloc) :
    ∃ e, s.round a = .ok (some e.1, e.2) ∧ s.Ends g r a.Succeeds [] e := by
  obtain ⟨k, mem, node, entry, ptr, resid⟩ := s
  obtain rfl : node = SFS_BLKN_ROOT := h.node
  have hin : 0 < k.refCount (.sfs SFS_BLKN_ROOT) := by
    rw [h.refs, incRef_self]
    exact Nat.succ_pos _
  obtain ⟨res, hlook, hres⟩ := Kernel.sfsLookupOnce_spec h.loaded a ht.rootDir hin
    (by decide : dotdotName.length ≤ SFS_MAX_FNAME_LEN)
  rw [ht.rootUp] at hres
  rw [Climb.round, hlook, ok_bind]
  cases hres with
  | @found ino k' hspec hkeeps hrefs =>
    cases hspec
    obtain ⟨k₁, hdec₁, hkeeps₁, hrefs₁⟩ := Kernel.refDec_spec hkeeps.loaded (n := .sfs SFS_BLKN_ROOT)
      (by rw [hrefs, incRef_self]; exact Nat.succ_pos _) (Or.inr ⟨_, rfl, ht.rootDir⟩)
    rw [hrefs, decRef_incRef] at hrefs₁
    obtain ⟨k₂, hdec₂, hkeeps₂, hrefs₂⟩ := Kernel.refDec_spec hkeeps₁.loaded (n := .sfs SFS_BLKN_ROOT)
      (by rw [hrefs₁]; exact hin) (Or.inr ⟨_, rfl, ht.rootDir⟩)
    rw [hrefs₁, h.refs, decRef_incRef] at hrefs₂
    dsimp only
    rw [hdec₁, ok_bind, if_pos rfl, hdec₂, ok_bind]
    exact ⟨(0, _), rfl, .top (hkeeps.trans (hkeeps₁.trans hkeeps₂)) hrefs₂ rfl rfl store_nil.symm⟩
  | fault hspec => exact nomatch hspec
  | @noMem k' hfails hkeeps hrefs =>
    have hat : Climb.At g ⟨k', mem, SFS_BLKN_ROOT, entry, ptr, resid⟩ SFS_BLKN_ROOT r :=
      ⟨rfl, hkeeps.loaded, hrefs.trans h.refs, h.room⟩
    obtain ⟨k₁, hfailed, hkeeps₁, hrefs₁⟩ := hat.failed ht.rootDir (-E_NO_MEM)
    exact ⟨(_, _), hfailed, .noMem (hkeeps.trans hkeeps₁) hrefs₁ (fun hs => absurd hs hfails)
      fun _ _ => rfl⟩

/-- The loop goes on in the parent `p`, and has put `text` in front. -/
structure Climb.Goes (g : Dirs) (s : Climb) (p : ℕ) (r : Node → ℕ) (text : List UInt8) (s' : Climb) :
    Prop where
  go : s'.At g p r
  keeps : Keeps g s.kernel s'.kernel
  ptr : s'.ptr + text.length = s.ptr
  resid : s'.resid + text.length = s.resid
  mem : s'.mem = store s.mem s'.ptr text

/-- The slot of a directory in its parent. -/
theorem find_slot {slots es : List (ℕ × List UInt8)} {p : ℕ} {name : List UInt8} (ht : Tree g depth)
    (hp : DirPath g p names) (hes : g p = some es) (hlive : live slots = es) (he : (d, name) ∈ es)
    (hself : name ≠ dotName) (hup : name ≠ dotdotName) (hd : (g d).isSome) :
    slots.find? (fun e => e.1 = d) = some (d, name) := by
  obtain ⟨hmem, hne⟩ := List.mem_filter.mp (hlive ▸ he : (d, name) ∈ live slots)
  cases hfind : slots.find? fun e => e.1 = d with
  | none => exact absurd (decide_eq_true rfl) (List.find?_eq_none.mp hfind _ hmem)
  | some e =>
    have hino : e.1 = d := by simpa using List.find?_some hfind
    have hin : e ∈ live slots := by
      refine List.mem_filter.mpr ⟨List.mem_of_find?_eq_some hfind, ?_⟩
      rw [hino]
      exact hne
    rw [hp.entry_unique ht hes he hself hup hd (hlive ▸ hin) hino]

/-- **Any other directory** has its name in its parent. -/
theorem Climb.At.round_child {es : List (ℕ × List UInt8)} {p : ℕ} {name : List UInt8} (h : s.At g d r)
    (ht : Tree g depth) (a : Alloc) (hp : DirPath g p names) (hes : g p = some es) (he : (d, name) ∈ es)
    (hself : name ≠ dotName) (hup : name ≠ dotdotName) (hd : (g d).isSome) :
    (∃ s', s.round a = .ok (none, s') ∧ s.Goes g p r (name ++ [slashChar]) s') ∨
      ∃ e, s.round a = .ok (some e.1, e.2) ∧ ∀ text, s.Ends g r a.Succeeds (text ++ (name ++ [slashChar])) e := by
  obtain ⟨k, mem, node, entry, ptr, resid⟩ := s
  obtain rfl : node = d := h.node
  have hin : 0 < k.refCount (.sfs node) := by
    rw [h.refs, incRef_self]
    exact Nat.succ_pos _
  obtain ⟨res, hlook, hres⟩ := Kernel.sfsLookupOnce_spec h.loaded a hd hin
    (by decide : dotdotName.length ≤ SFS_MAX_FNAME_LEN)
  obtain ⟨hparent, hdepth⟩ := ht.child p es hes node name he hself hup hd
  rw [hparent] at hres
  rw [Climb.round, hlook, ok_bind]
  cases hres with
  | @found ino k' hspec hkeeps hrefs =>
    cases hspec
    have hne : node ≠ p := by
      rintro rfl
      omega
    have hpos' : 0 < k'.refCount (.sfs node) := by
      rw [hrefs]
      exact hin.trans_le le_incRef
    obtain ⟨k₁, hdec, hkeeps₁, hrefs₁⟩ := Kernel.refDec_spec hkeeps.loaded hpos' (Or.inr ⟨_, rfl, hd⟩)
    rw [hrefs, h.refs, incRef_comm, decRef_incRef] at hrefs₁
    obtain ⟨es', hes'⟩ := Option.isSome_iff_exists.mp hd
    obtain ⟨-, -, -, hino⟩ := hkeeps.loaded.dirIs hes' hpos'
    obtain ⟨slots, hlive, hdir, hparentIno⟩ := hkeeps₁.loaded.dirIs hes
      (by rw [hrefs₁, incRef_self]; exact Nat.succ_pos _)
    obtain ⟨entry', hfindino, hname⟩ := sfsDirentFindino_spec hdir
      (find_slot ht hp hes hlive he hself hup hd) entry
    have hat : ∀ mem' ptr' resid', resid' ≤ ptr' →
        Climb.At g ⟨k₁, mem', p, entry', ptr', resid'⟩ p r :=
      fun _ _ _ hroom => ⟨rfl, hkeeps₁.loaded, hrefs₁, hroom⟩
    dsimp only
    rw [hdec, ok_bind, if_neg hne, hino, ensure_pos ⟨by rw [hparentIno]; exact hne, hdir.type⟩, ok_bind,
      hfindino, ok_bind]
    dsimp only
    rw [if_neg (not_not.mpr rfl), setInode_self, hname]
    have hroom : resid ≤ ptr := h.room
    by_cases hfull : name.length + 1 > resid
    · rw [if_pos hfull]
      obtain ⟨k₂, hfailed, hkeeps₂, hrefs₂⟩ := (hat mem ptr resid hroom).failed (hp.isDir ht) (-E_NO_MEM)
      refine Or.inr ⟨(_, _), hfailed, fun text => .noMem (hkeeps.trans (hkeeps₁.trans hkeeps₂)) hrefs₂
        (fun _ => ?_) fun _ _ => rfl⟩
      show resid < _
      rw [List.length_append, List.length_append, List.length_singleton]
      omega
    · rw [if_neg hfull]
      have hlen : (name ++ [slashChar]).length = name.length + 1 := List.length_append
      refine Or.inl ⟨_, rfl, hat _ _ _ (by omega), hkeeps.trans hkeeps₁, ?_, ?_, rfl⟩
      · show ptr - (name.length + 1) + _ = ptr
        omega
      · show resid - (name.length + 1) + _ = resid
        omega
  | fault hspec => exact nomatch hspec
  | @noMem k' hfails hkeeps hrefs =>
    have hat : Climb.At g ⟨k', mem, node, entry, ptr, resid⟩ node r :=
      ⟨rfl, hkeeps.loaded, hrefs.trans h.refs, h.room⟩
    obtain ⟨k₁, hfailed, hkeeps₁, hrefs₁⟩ := hat.failed hd (-E_NO_MEM)
    exact Or.inr ⟨(_, _), hfailed, fun text => .noMem (hkeeps.trans hkeeps₁) hrefs₁
      (fun hs => absurd hs hfails) fun _ _ => rfl⟩

/-! ### The loop -/

theorem Climb.Ends.imp {succeeds succeeds' : Prop} {text : List UInt8} {e : ℤ × Climb}
    (h : s.Ends g r succeeds text e) (himp : succeeds' → succeeds) : s.Ends g r succeeds' text e := by
  cases h with
  | top hkeeps hrefs hptr hresid hmem => exact .top hkeeps hrefs hptr hresid hmem
  | noMem hkeeps hrefs hwhy hmem => exact .noMem hkeeps hrefs (fun hs => hwhy (himp hs)) hmem

/-- What is put in front after a round. -/
theorem Climb.Goes.ends {s' : Climb} {p : ℕ} {succeeds : Prop} {last text : List UInt8} {e : ℤ × Climb}
    (h : s.Goes g p r last s') (he : s'.Ends g r succeeds text e) :
    s.Ends g r succeeds (text ++ last) e := by
  have hptr := h.ptr
  have hresid := h.resid
  have hroom := h.go.room
  cases he with
  | @top s₁ hkeeps hrefs hptr₁ hresid₁ hmem =>
    refine .top (h.keeps.trans hkeeps) hrefs ?_ ?_ ?_
    · rw [List.length_append]
      omega
    · rw [List.length_append]
      omega
    · rw [hmem, h.mem, ← hptr₁, store_append]
  | @noMem s₁ hkeeps hrefs hwhy hmem =>
    refine .noMem (h.keeps.trans hkeeps) hrefs (fun hs => ?_) fun i hi => ?_
    · have hlt := hwhy hs
      rw [List.length_append]
      omega
    · rw [hmem i (by omega), h.mem, store_of_not (by omega)]

/-- **The loop** ends after as many rounds as there are directories on the path. -/
theorem Climb.At.loop_spec (h : s.At g d r) (allocs : ℕ → Alloc) (ht : Tree g depth)
    (hp : DirPath g d names) (i : ℕ) :
    ∃ e, (∀ rounds, names.length < rounds → Climb.loop allocs rounds i s = .ok (some e)) ∧
      s.Ends g r (∀ i, (allocs i).Succeeds) (pathText names) e := by
  induction hp generalizing s i with
  | root =>
    obtain ⟨e, hround, hends⟩ := h.round_root ht (allocs i)
    refine ⟨e, fun rounds hrounds => ?_, hends.imp fun hs => hs i⟩
    obtain ⟨rounds, rfl⟩ := Nat.exists_eq_add_one_of_ne_zero (Nat.ne_of_gt hrounds)
    rw [Climb.loop, hround, ok_bind]
  | @child p d names name es hp hes he hself hup hd ih =>
    have hlen : (names ++ [name]).length = names.length + 1 := List.length_append
    have hsucc : ∀ rounds, (names ++ [name]).length < rounds → ∃ n, names.length < n ∧ rounds = n + 1 :=
      fun rounds hrounds => ⟨rounds - 1, by omega, by omega⟩
    rw [pathText_snoc]
    rcases h.round_child ht (allocs i) hp hes he hself hup hd with ⟨s', hround, hgoes⟩ | ⟨e, hround, hends⟩
    · obtain ⟨e, hloop, hends⟩ := ih hgoes.go (i + 1)
      refine ⟨e, fun rounds hrounds => ?_, hgoes.ends hends⟩
      obtain ⟨n, hn, rfl⟩ := hsucc rounds hrounds
      rw [Climb.loop, hround, ok_bind]
      exact hloop n hn
    · refine ⟨e, fun rounds hrounds => ?_, (hends (pathText names)).imp fun hs => hs i⟩
      obtain ⟨n, -, rfl⟩ := hsucc rounds hrounds
      rw [Climb.loop, hround, ok_bind]

/-! ### The buffer -/

/-- The buffer after `n` bytes. -/
def Iobuf.skip (iob : Iobuf) (n : ℕ) : Iobuf :=
  { iob with ioBase := iob.ioBase + n, ioOffset := iob.ioOffset + n, ioResid := iob.ioResid - n }

variable {iob : Iobuf} {data : List UInt8}

theorem iobufSkip_spec {n : ℕ} (h : n ≤ iob.ioResid) : iobufSkip iob n = .ok (iob.skip n) := by
  rw [iobufSkip, ensure_pos h]
  rfl

/-- A string for which there is room. -/
theorem iobufMove_fits (h : data.length ≤ iob.ioResid) :
    iobufMove mem iob data = .ok (0, store mem iob.ioBase data, iob.skip data.length) := by
  have halen : (if iob.ioResid > data.length then data.length else iob.ioResid) = data.length := by
    split
    · rfl
    · omega
  rw [iobufMove, halen, Nat.sub_self, if_pos rfl, List.take_length]
  by_cases hpos : data.length > 0
  · rw [if_pos hpos, iobufSkip_spec h]
    rfl
  · have hnil := List.eq_nil_of_length_eq_zero (Nat.eq_zero_of_not_pos hpos)
    subst hnil
    simp [Iobuf.skip]

/-- A string that is too long is cut off. -/
theorem iobufMove_short (mem : Mem) (h : iob.ioResid < data.length) : ∃ mem' iob',
    iobufMove mem iob data = .ok (-E_NO_MEM, mem', iob') ∧
      ∀ i, ¬ (iob.ioBase ≤ i ∧ i < iob.ioBase + iob.ioResid) → mem' i = mem i := by
  have halen : (if iob.ioResid > data.length then data.length else iob.ioResid) = iob.ioResid :=
    if_neg (by omega)
  have hret : (if data.length - iob.ioResid = 0 then 0 else -E_NO_MEM) = -E_NO_MEM := if_neg (by omega)
  rw [iobufMove, halen, hret]
  by_cases hpos : iob.ioResid > 0
  · rw [if_pos hpos, iobufSkip_spec le_rfl, ok_bind]
    refine ⟨_, _, rfl, fun i hi => store_of_not ?_⟩
    rw [List.length_take, min_eq_left h.le]
    exact hi
  · rw [if_neg hpos]
    exact ⟨_, _, rfl, fun _ _ => rfl⟩

/-! ### Paths -/

/-- What a call for a path does with a buffer of `len` bytes at `base`: it gives `text`, or the error for
want of memory or room. -/
inductive Kernel.Gives (g : Dirs) (k : Kernel) (mem : Mem) (base len : ℕ) (succeeds : Prop) (room : ℕ)
    (text : List UInt8) : ℤ × Kernel × Mem × Iobuf → Prop
  | path {k' : Kernel} {mem' : Mem} {iob : Iobuf} (hkeeps : Keeps g k k')
      (hrefs : k'.refCount = k.refCount) (hlen : text.length ≤ len)
      (htext : ∀ i (hi : i < text.length), mem' (base + i) = text[i])
      (hframe : ∀ i, ¬ (base ≤ i ∧ i < base + len) → mem' i = mem i) :
      Gives g k mem base len succeeds room text (0, k', mem', iob)
  | noMem {k' : Kernel} {mem' : Mem} {iob : Iobuf} (hkeeps : Keeps g k k')
      (hrefs : k'.refCount = k.refCount) (hwhy : succeeds → len < room)
      (hframe : ∀ i, ¬ (base ≤ i ∧ i < base + len) → mem' i = mem i) :
      Gives g k mem base len succeeds room text (-E_NO_MEM, k', mem', iob)

/-- The path from the root, as `sfs_namefile` gives it. -/
def rootPath (names : List (List UInt8)) : List UInt8 := slashChar :: (pathText names ++ [0])

theorem length_rootPath : (rootPath names).length = (pathText names).length + 2 := by
  rw [rootPath, List.length_cons, List.length_append, List.length_singleton]

/-- The names are moved to the start, and the ends are put around them. -/
theorem moved_path {ptr base : ℕ} (h : ∀ j (hj : j < (pathText names).length), mem (ptr + j) = (pathText names)[j])
    {i : ℕ} (hi : i < (rootPath names).length) :
    update (update (memcpy mem (base + 1) (fun i => mem (ptr + i)) (pathText names).length) base slashChar)
      (base + 1 + (pathText names).length) 0 (base + i) = (rootPath names)[i] := by
  rw [length_rootPath] at hi
  cases i with
  | zero =>
    rw [update_of_ne (by omega)]
    exact update_self ..
  | succ j =>
    simp only [rootPath, List.getElem_cons_succ]
    by_cases hj : j < (pathText names).length
    · rw [update_of_ne (by omega), update_of_ne (by omega), memcpy_of_mem (by omega) (by omega),
        List.getElem_append_left hj, ← h j hj]
      congr 2
      omega
    · obtain rfl : j = (pathText names).length := by omega
      rw [show base + ((pathText names).length + 1) = base + 1 + (pathText names).length by omega,
        update_self, List.getElem_append_right le_rfl]
      simp

theorem Climb.out_top {n : ℕ} (hn : iob.ioResid - s.resid - 2 = n) :
    s.out 0 iob = .ok (some (0, s.kernel, update (update (memcpy s.mem (iob.ioBase + 1)
      (fun i => s.mem (s.ptr + i)) n) iob.ioBase slashChar) (iob.ioBase + 1 + n) 0, iob.skip n)) := by
  subst hn
  rw [Climb.out, if_neg (not_not.mpr rfl)]
  dsimp only
  rw [iobufSkip_spec (by omega), ok_bind, Nat.add_sub_cancel]

/-- **`sfs_namefile`**. -/
theorem Kernel.sfsNamefile_spec (ht : Tree g depth) (hp : DirPath g d names) (h : Loaded g k)
    (hin : 0 < k.refCount (.sfs d)) (allocs : ℕ → Alloc) (entry : Option Mem) (mem : Mem) (iob : Iobuf) :
    ∃ e, (∀ rounds, names.length < rounds →
        k.sfsNamefile allocs rounds entry mem d iob = .ok (some e)) ∧
      k.Gives g mem iob.ioBase iob.ioResid (entry.isSome ∧ ∀ i, (allocs i).Succeeds)
        (max 3 (rootPath names).length) (rootPath names) e := by
  by_cases hsmall : iob.ioResid ≤ 2
  · exact ⟨_, fun _ _ => if_pos hsmall, .noMem h.keeps rfl (fun _ => by omega) fun _ _ => rfl⟩
  cases entry with
  | none =>
    exact ⟨_, fun _ _ => if_neg hsmall, .noMem h.keeps rfl (fun hs => nomatch hs.1) fun _ _ => rfl⟩
  | some entry =>
    have hat : Climb.At g ⟨k.refInc (.sfs d), mem, d, entry, iob.ioBase + iob.ioResid, iob.ioResid - 2⟩ d
        k.refCount := ⟨rfl, h.refInc hin, rfl, by dsimp only; omega⟩
    obtain ⟨e, hloop, hends⟩ := hat.loop_spec allocs ht hp 0
    have hkeeps₀ := h.keeps_refInc hin
    have hrun : ∀ rounds, names.length < rounds →
        k.sfsNamefile allocs rounds (some entry) mem d iob = e.2.out e.1 iob := by
      intro rounds hrounds
      rw [Kernel.sfsNamefile, if_neg hsmall]
      rw [hloop rounds hrounds, ok_bind]
    cases hends with
    | @top s' hkeeps hrefs hptr hresid hmem =>
      dsimp only at hptr hresid hmem
      have hlen : (rootPath names).length = (pathText names).length + 2 := length_rootPath
      have halen : iob.ioResid - s'.resid - 2 = (pathText names).length := by omega
      refine ⟨_, fun rounds hrounds => (hrun rounds hrounds).trans (Climb.out_top halen), .path (hkeeps₀.trans hkeeps) hrefs (by omega) (fun i hi => moved_path ?_ hi) ?_⟩
      · intro j hj
        rw [hmem, store_of_mem hj]
      · intro i hi
        rw [update_of_ne (by omega), update_of_ne (by omega), memcpy_of_not (by omega), hmem,
          store_of_not (by omega)]
    | noMem hkeeps hrefs hwhy hmem =>
      dsimp only at hwhy hmem
      have hne : (-E_NO_MEM : ℤ) ≠ 0 := by decide
      refine ⟨_, fun rounds hrounds => (hrun rounds hrounds).trans (if_pos hne), .noMem (hkeeps₀.trans hkeeps) hrefs (fun hs => ?_) fun i hi => hmem i (by omega)⟩
      have hlt := hwhy hs.2
      rw [length_rootPath]
      omega

/-- The reference of `vfs_get_curdir` is given back. -/
theorem Kernel.Gives.getcwdOut {base len room : ℕ} {succeeds : Prop} {text : List UInt8}
    {e : ℤ × Kernel × Mem × Iobuf}
    (h : (k.refInc (.sfs d)).Gives g mem base len succeeds room text e) (hd : (g d).isSome)
    (hkeeps₀ : Keeps g k (k.refInc (.sfs d))) :
    ∃ k₁, e.2.1.getcwdOut d e.1 e.2.2.1 e.2.2.2 = .ok (some (e.1, k₁, e.2.2)) ∧
      k.Gives g mem base len succeeds room text (e.1, k₁, e.2.2) := by
  have hdec : ∀ k', Keeps g (k.refInc (.sfs d)) k' → k'.refCount = (k.refInc (.sfs d)).refCount →
      ∃ k₁, k'.refDec (.sfs d) = .ok k₁ ∧ Keeps g k k₁ ∧ k₁.refCount = k.refCount := by
    intro k' hkeeps hrefs
    have hrefs' : k'.refCount = incRef k.refCount (.sfs d) := hrefs
    obtain ⟨k₁, hdec, hkeeps₁, hrefs₁⟩ := Kernel.refDec_spec hkeeps.loaded (n := .sfs d)
      (by rw [hrefs', incRef_self]; exact Nat.succ_pos _) (Or.inr ⟨d, rfl, hd⟩)
    rw [hrefs', decRef_incRef] at hrefs₁
    exact ⟨k₁, hdec, hkeeps₀.trans (hkeeps.trans hkeeps₁), hrefs₁⟩
  cases h with
  | path hkeeps hrefs hlen htext hframe =>
    obtain ⟨k₁, hdec, hkeeps₁, hrefs₁⟩ := hdec _ hkeeps hrefs
    refine ⟨k₁, ?_, .path hkeeps₁ hrefs₁ hlen htext hframe⟩
    rw [Kernel.getcwdOut, hdec, ok_bind]
  | noMem hkeeps hrefs hwhy hframe =>
    obtain ⟨k₁, hdec, hkeeps₁, hrefs₁⟩ := hdec _ hkeeps hrefs
    refine ⟨k₁, ?_, .noMem hkeeps₁ hrefs₁ hwhy hframe⟩
    rw [Kernel.getcwdOut, hdec, ok_bind]

/-- The text behind what is in the buffer already. -/
theorem Kernel.Gives.behind {base len room : ℕ} {succeeds : Prop} {pre text : List UInt8}
    {e : ℤ × Kernel × Mem × Iobuf} (h : k.Gives g (store mem base pre) (base + pre.length)
      (len - pre.length) succeeds room text e) (hpre : pre.length ≤ len) :
    k.Gives g mem base len succeeds (pre.length + room) (pre ++ text) e := by
  cases h with
  | path hkeeps hrefs hlen htext hframe =>
    refine .path hkeeps hrefs ?_ ?_ ?_
    · rw [List.length_append]
      omega
    · intro i hi
      by_cases hi' : i < pre.length
      · rw [hframe _ (by omega), store_of_mem hi', List.getElem_append_left]
      · rw [List.length_append] at hi
        rw [List.getElem_append_right (by omega), ← htext (i - pre.length) (by omega)]
        congr 1
        omega
    · intro i hi
      rw [hframe i (by omega), store_of_not (by omega)]
  | noMem hkeeps hrefs hwhy hframe =>
    refine .noMem hkeeps hrefs (fun hs => ?_) fun i hi => ?_
    · have hlt := hwhy hs
      omega
    · rw [hframe i (by omega), store_of_not (by omega)]

/-- **`vfs_getcwd`**, for any buffer. -/
theorem Kernel.vfsGetcwd_spec (h : k.Ok g) (ht : Tree g depth) (hp : DirPath g d names)
    (hpwd : k.pwd = some (.sfs d)) {devname : List UInt8}
    (hdev : vfsGetDevname k.vdevList = some devname) (allocs : ℕ → Alloc) (entry : Option Mem) (mem : Mem)
    (iob : Iobuf) :
    ∃ e, (∀ rounds, names.length < rounds →
        k.vfsGetcwd allocs rounds entry mem iob = .ok (some e)) ∧
      k.Gives g mem iob.ioBase iob.ioResid (entry.isSome ∧ ∀ i, (allocs i).Succeeds)
        (devname.length + (1 + max 3 (rootPath names).length))
        (devname ++ ([colonChar] ++ rootPath names)) e := by
  have hd := hp.isDir ht
  have hin : 0 < k.refCount (.sfs d) := by
    obtain ⟨d', hnode, -, hin⟩ := h.pwd _ hpwd
    cases hnode
    exact hin
  have hloaded := h.loaded.refInc hin
  have hkeeps₀ := h.loaded.keeps_refInc hin
  have hcurdir : k.vfsGetCurdir = (.ok (.sfs d), k.refInc (.sfs d)) := by
    rw [Kernel.vfsGetCurdir, hpwd]
  have hdev' : vfsGetDevname (k.refInc (.sfs d)).vdevList = some devname := hdev
  have hne : (-E_NO_MEM : ℤ) ≠ 0 := by decide
  suffices hrun : ∃ e : ℤ × Kernel × Mem × Iobuf, (∀ rounds, names.length < rounds →
      k.vfsGetcwd allocs rounds entry mem iob = e.2.1.getcwdOut d e.1 e.2.2.1 e.2.2.2) ∧
      (k.refInc (.sfs d)).Gives g mem iob.ioBase iob.ioResid (entry.isSome ∧ ∀ i, (allocs i).Succeeds)
        (devname.length + (1 + max 3 (rootPath names).length))
        (devname ++ ([colonChar] ++ rootPath names)) e by
    obtain ⟨e, hrun, hgives⟩ := hrun
    obtain ⟨k₁, hout, hgives'⟩ := hgives.getcwdOut hd hkeeps₀
    exact ⟨_, fun rounds hrounds => (hrun rounds hrounds).trans hout, hgives'⟩
  simp only [Kernel.vfsGetcwd, hcurdir, hdev']
  by_cases hname : devname.length ≤ iob.ioResid
  case neg =>
    obtain ⟨mem', iob', hmove, hframe⟩ := iobufMove_short mem (not_le.mp hname)
    refine ⟨(-E_NO_MEM, k.refInc (.sfs d), mem', iob'), fun _ _ => ?_,
      .noMem hloaded.keeps rfl (fun _ => by omega) hframe⟩
    simp only [hmove, ok_bind, if_pos hne]
  rw [iobufMove_fits hname]
  simp only [ok_bind, ne_eq, not_true, if_false]
  have hresid : (iob.skip devname.length).ioResid = iob.ioResid - devname.length := rfl
  by_cases hcolon : [colonChar].length ≤ (iob.skip devname.length).ioResid
  case neg =>
    obtain ⟨mem', iob', hmove, hframe⟩ :=
      iobufMove_short (store mem iob.ioBase devname) (not_le.mp hcolon)
    refine ⟨(-E_NO_MEM, k.refInc (.sfs d), mem', iob'), fun _ _ => ?_, Kernel.Gives.behind
      (.noMem hloaded.keeps rfl (fun _ => ?_) hframe) hname⟩
    · simp only [hmove, ok_bind, hne, not_false_iff, if_true]
    · rw [hresid, List.length_singleton] at hcolon
      omega
  rw [iobufMove_fits hcolon]
  obtain ⟨es, hes⟩ := Option.isSome_iff_exists.mp hd
  have hpos : 0 < (k.refInc (.sfs d)).refCount (.sfs d) := hin.trans_le le_incRef
  obtain ⟨_, -, hdir, -⟩ := hloaded.dirIs hes hpos
  obtain ⟨e, hrun, hgives⟩ := Kernel.sfsNamefile_spec ht hp hloaded hpos allocs entry
    (store (store mem iob.ioBase devname) (iob.skip devname.length).ioBase [colonChar])
    ((iob.skip devname.length).skip [colonChar].length)
  refine ⟨e, fun rounds hrounds => ?_, Kernel.Gives.behind (Kernel.Gives.behind hgives hcolon) hname⟩
  simp only [ok_bind, not_true, if_false, Kernel.vopNamefile, ensure_pos hdir.type, hrun rounds hrounds]

/-- **`vfs_getcwd`** gives the path of the current directory, or the error for want of memory or room.
It ends, writes only to the buffer, and gives back all references. -/
theorem getcwd_path (g : Dirs) (k : Kernel) (h : k.Ok g) (depth : ℕ → ℕ) (ht : Tree g depth) {d : ℕ}
    {names : List (List UInt8)} (hp : DirPath g d names) (hpwd : k.pwd = some (.sfs d))
    {devname : List UInt8} (hdev : vfsGetDevname k.vdevList = some devname) (allocs : ℕ → Alloc)
    (entry : Option Mem) (mem : Mem) (base len : ℕ) :
    ∃ e, (∀ rounds, names.length < rounds →
        k.vfsGetcwd allocs rounds entry mem (iobufInit base len 0) = .ok (some e)) ∧
      k.Gives g mem base len (entry.isSome ∧ ∀ i, (allocs i).Succeeds)
        (devname.length + (1 + max 3 (rootPath names).length)) (devname ++ colonChar :: rootPath names) e :=
  Kernel.vfsGetcwd_spec h ht hp hpwd hdev allocs entry mem (iobufInit base len 0)

/-! ### A directory in the root -/

theorem nested_cases {p : ℕ} {es : List (ℕ × List UInt8)} (h : nested p = some es) :
    (p = 1 ∧ es = [(1, [46]), (1, [46, 46]), (6, [97])]) ∨
      (p = 6 ∧ es = [(6, [46]), (1, [46, 46]), (10, [98])]) := by
  rw [nested] at h
  split at h
  case isTrue hp => exact Or.inl ⟨hp, (Option.some.inj h).symm⟩
  case isFalse =>
    split at h
    case isTrue hp => exact Or.inr ⟨hp, (Option.some.inj h).symm⟩
    case isFalse => cases h

theorem nested_child {p d : ℕ} {es : List (ℕ × List UInt8)} {name : List UInt8}
    (h : nested p = some es) (hmem : (d, name) ∈ es) (hself : name ≠ dotName) (hup : name ≠ dotdotName) :
    (p = 1 ∧ d = 6 ∧ name = [97]) ∨ (p = 6 ∧ d = 10 ∧ name = [98]) := by
  rcases nested_cases h with ⟨rfl, rfl⟩ | ⟨rfl, rfl⟩
  · simp only [List.mem_cons, Prod.mk.injEq, List.not_mem_nil, or_false] at hmem
    rcases hmem with ⟨-, rfl⟩ | ⟨-, rfl⟩ | ⟨rfl, rfl⟩
    · exact absurd rfl hself
    · exact absurd rfl hup
    · exact Or.inl ⟨rfl, rfl, rfl⟩
  · simp only [List.mem_cons, Prod.mk.injEq, List.not_mem_nil, or_false] at hmem
    rcases hmem with ⟨-, rfl⟩ | ⟨-, rfl⟩ | ⟨rfl, rfl⟩
    · exact absurd rfl hself
    · exact absurd rfl hup
    · exact Or.inr ⟨rfl, rfl, rfl⟩

theorem tree_nested : Tree nested fun d => if d = 1 then 0 else 1 := by
  refine ⟨rfl, rfl, rfl, ?_, ?_, ?_, ?_⟩
  · intro p es hes
    rcases nested_cases hes with ⟨-, rfl⟩ | ⟨-, rfl⟩
    · decide
    · decide
  · intro p es hes d hd
    rcases nested_cases hes with ⟨rfl, rfl⟩ | ⟨rfl, rfl⟩
    · simpa [dotName] using hd
    · simpa [dotName] using hd
  · intro p es hes d name hmem hself hup hd
    rcases nested_child hes hmem hself hup with ⟨rfl, rfl, -⟩ | ⟨-, rfl, -⟩
    · exact ⟨rfl, rfl⟩
    · exact nomatch hd
  · intro p es hes d name name' hmem hmem' hself hup hself' hup' hd
    rcases nested_child hes hmem hself hup with ⟨-, rfl, rfl⟩ | ⟨-, rfl, -⟩
    · rcases nested_child hes hmem' hself' hup' with ⟨-, -, rfl⟩ | ⟨-, h, -⟩
      · rfl
      · exact nomatch h
    · exact nomatch hd

/-- The path of `a` in a buffer of 32 bytes is `disk0:/a/`. -/
theorem getcwd_path_one : ∃ k' mem' iob', (∀ rounds, 1 < rounds →
      (nestedKernel 6).vfsGetcwd (fun _ => plenty) rounds (some fun _ => 0) (fun _ => 0)
        (iobufInit 4096 32 0) = .ok (some (0, k', mem', iob'))) ∧
    k'.refCount = (nestedKernel 6).refCount ∧
    ∀ i (hi : i < 10), mem' (4096 + i) = [100, 105, 115, 107, 48, 58, 47, 97, 47, 0].get ⟨i, hi⟩ := by
  have hpath : DirPath nested 6 ([] ++ [[97]]) :=
    .child .root rfl (by decide : (6, [97]) ∈ [(1, [46]), (1, [46, 46]), (6, ([97] : List UInt8))])
      (by decide) (by decide) rfl
  obtain ⟨e, hrun, hgives⟩ := getcwd_path nested (nestedKernel 6) (ok_nested (Or.inr rfl)) _ tree_nested hpath
    rfl rfl (fun _ => plenty) (some fun _ => 0) (fun _ => 0) 4096 32
  cases hgives with
  | path hkeeps hrefs hlen htext hframe => exact ⟨_, _, _, hrun, hrefs, htext⟩
  | noMem hkeeps hrefs hwhy => exact absurd (hwhy ⟨rfl, fun _ => ⟨rfl, rfl, rfl⟩⟩) (by decide)

end Ucore.Vfs
