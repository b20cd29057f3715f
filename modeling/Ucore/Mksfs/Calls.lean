import Ucore.Lib.Bytes
import Ucore.Lib.Transition
import Ucore.Mksfs.Append

/-!
# Runs of the image builder

Every call keeps the uses of the blocks.  It leaves a file alone (`Keeps`), unless it is `add_entry`
for this directory, which then has one block more.
-/

namespace Ucore.Mksfs

open Bytes Fallible Function Memory Sfs Transition

variable {s s' : SfsFs} {use use' : ℕ → Use} {f g real type : ℕ} {call : Call}
  {calls : List Call} {ws chunks : List (List UInt8)} {name : List UInt8}

theorem Extends.trans {s'' : SfsFs} {use'' : ℕ → Use} (h₁ : Extends g s use s' use')
    (h₂ : Extends g s' use' s'' use'') : Extends g s use s'' use'' :=
  ⟨h₂.ok, fun f hf => (h₁.keeps f hf).trans (h₂.keeps f hf),
    fun h hh => h₂.isInode h (h₁.isInode h hh),
    fun h hh => (h₂.inodes h hh).elim (h₁.inodes h) Or.inr⟩

theorem Extends.ninos (h : Extends g s use s' use') : s'.ninos = s.ninos :=
  (h.keeps (g + 1) (Nat.succ_ne_self g)).ninos

/-! ### New files -/

theorem RefsOk.empty {inode : Inode} (hindirect : inode.indirect = 0)
    (hdbIndirect : inode.dbIndirect = 0) : RefsOk s use g inode :=
  ⟨fun hne => absurd hindirect hne, fun hne => absurd hdbIndirect hne,
    fun hne => absurd hdbIndirect hne⟩

theorem Mapped.empty {inode : Inode} (hdirect : inode.direct = fun _ => 0)
    (hindirect : inode.indirect = 0) : Mapped s use g inode [] :=
  ⟨nofun, List.nodup_nil, fun _ _ => congrFun hdirect _, iff_of_true hindirect (Nat.zero_le _),
    fun hne => absurd hindirect hne⟩

/-- A new inode: its file has no blocks. -/
theorem allocCacheInode_ok (hok : Ok s use) (halloc : s.allocCacheInode real 0 type = .ok (g, s')) :
    g = s.nextIno ∧ s'.IsInode g ∧
      ∃ use', Extends g s use s' use' ∧ FileIs s' use' g type [] := by
  obtain ⟨r, hr, heq⟩ := bind_eq_ok.mp halloc
  rw [if_neg (not_not.mpr rfl)] at hr
  obtain ⟨hlt, rfl⟩ := sfsAllocIno_eq_ok.mp hr
  cases heq
  have hfirst := hok.first_le
  have hunused := hok.unused
  have hnew : (update s.inode s.nextIno ⟨⟨0, type, 0, 0, fun _ => 0, 0, 0⟩, 0, none, none⟩) s.nextIno =
      ⟨⟨0, type, 0, 0, fun _ => 0, 0, 0⟩, 0, none, none⟩ := update_self _ _ _
  have hmem : ∀ {i h}, h ∈ update s.inodes (hash64 real) (s.nextIno :: s.inodes (hash64 real)) i ↔
      h ∈ s.inodes i ∨ h = s.nextIno ∧ i = hash64 real := by
    intro i h
    by_cases hi : i = hash64 real
    · rw [hi, update_self, List.mem_cons, and_iff_left rfl, or_comm]
    · rw [update_of_ne hi]
      exact (or_iff_left fun hand => hi hand.2).symm
  have hhas : ∀ {c v}, s.alloc.Has (update use s.nextIno .inode) c v ↔
      s.Has use c v ∨ c = s.nextIno ∧ v = .inode := has_alloc_iff hok
  have huses : ∀ c < s.nextIno, update use s.nextIno Use.inode c = use c := update_use .inode
  refine ⟨rfl, ⟨hash64 real, hmem.mpr (Or.inr ⟨rfl, rfl⟩)⟩, update use s.nextIno .inode,
    ⟨⟨Nat.le_succ_of_le hfirst, hlt, hok.max, ?_, ?_, ?_, ?_, ?_⟩, ?_, ?_, ?_⟩, ?_⟩
  · show s.unusedBlocks - 1 + (s.nextIno + 1) = s.ninos
    omega
  · intro i h hh
    rcases hmem.mp hh with hh | ⟨rfl, rfl⟩
    · obtain ⟨hi, hroot | hold⟩ := hok.inodes i h hh
      · exact ⟨hi, Or.inl hroot⟩
      · exact ⟨hi, Or.inr (hhas.mpr (Or.inl hold))⟩
    · exact ⟨hash32_lt _, Or.inr (hhas.mpr (Or.inr ⟨rfl, rfl⟩))⟩
  · intro i c hc
    obtain ⟨hi, h, hold⟩ := hok.blocks i c hc
    refine ⟨hi, h, ?_⟩
    exact hold.imp (fun ht => hhas.mpr (Or.inl ht)) fun ht => hhas.mpr (Or.inl ht)
  · intro c h hold
    apply hok.listed c h
    exact hold.imp (fun ht => (hhas.mp ht).resolve_right fun hand => nomatch hand.2)
      fun ht => (hhas.mp ht).resolve_right fun hand => nomatch hand.2
  · rintro h ⟨i, hi⟩
    show RefsOk _ _ h (update s.inode s.nextIno _ h).inode
    by_cases hg : h = s.nextIno
    · rw [hg, hnew]
      exact RefsOk.empty rfl rfl
    · rw [update_of_ne hg]
      have hold := (hmem.mp hi).resolve_right fun hand => hg hand.1
      exact (hok.refs h ⟨i, hold⟩).extend rfl (Nat.le_succ _) huses fun _ _ => rfl
  · intro f hf
    exact ⟨rfl, Nat.le_succ _, huses, fun _ _ => rfl, fun _ _ => rfl, (s.inode f).inode.nlinks,
      update_of_ne hf _ _⟩
  · rintro h ⟨i, hi⟩
    exact ⟨i, hmem.mpr (Or.inl hi)⟩
  · rintro h ⟨i, hi⟩
    rcases hmem.mp hi with hold | ⟨hnew, -⟩
    · exact Or.inl ⟨i, hold⟩
    · exact Or.inr hnew
  · refine ⟨?_, ?_, ?_, ?_, Nat.zero_le _, nofun, ?_⟩
    · exact congrArg (fun ci => ci.inode.type) hnew
    · exact congrArg (fun ci => ci.nblks) hnew
    · exact congrArg (fun ci => ci.inode.blocks) hnew
    · exact congrArg (fun ci => ci.inode.size) hnew
    · intro _
      refine ⟨[], rfl, ?_, nofun⟩
      show Mapped _ _ _ (update s.inode s.nextIno _ s.nextIno).inode []
      rw [hnew]
      exact Mapped.empty rfl rfl

/-- The loop of `open_file` adds the chunks. -/
theorem openFileLoop_ok {last : ℕ} (hok : Ok s use) (hg : s.IsInode g)
    (hf : FileIs s use g type ws) (hopen : SfsFs.openFileLoop g s last chunks = .ok s') :
    Chunks SFS_BLKSIZE chunks ∧ (chunks ≠ [] → last = SFS_BLKSIZE) ∧
      ∃ use', Extends g s use s' use' ∧ FileIs s' use' g type (ws ++ chunks) := by
  induction chunks generalizing s use ws last with
  | nil =>
    cases hopen
    rw [List.append_nil]
    exact ⟨trivial, fun hne => absurd rfl hne, use, ⟨hok, fun f _ => Keeps.refl f _ _, fun _ h => h,
      fun _ h => Or.inl h⟩, hf⟩
  | cons chunk chunks ih =>
    obtain ⟨u, hu, hopen⟩ := bind_eq_ok.mp hopen
    obtain ⟨s₁, hadd, hopen⟩ := bind_eq_ok.mp hopen
    obtain ⟨use₁, hext₁, hfile⟩ := addBlock_ok hok hg hadd
    have hf₁ := hfile type ws chunk hf rfl fun _ _ => rfl
    obtain ⟨hfull, hlast, use', hext', hf'⟩ := ih hext₁.ok (hext₁.isInode g hg) hf₁ hopen
    refine ⟨?_, fun _ => require_eq_ok.mp hu, use', hext₁.trans hext', ?_⟩
    · cases chunks with
      | nil => trivial
      | cons c cs => exact ⟨hlast (List.cons_ne_nil _ _), hfull⟩
    · rw [List.append_assoc] at hf'
      exact hf'

/-- **A new file** has the chunks that `read` returned. -/
theorem newFile_ok (hok : Ok s use) (hnew : s.newFile real chunks = .ok (g, s')) :
    g = s.nextIno ∧ s'.IsInode g ∧ Chunks SFS_BLKSIZE chunks ∧
      ∃ use', Extends g s use s' use' ∧ FileIs s' use' g SFS_TYPE_FILE chunks := by
  obtain ⟨⟨h, s₁⟩, halloc, hnew⟩ := bind_eq_ok.mp hnew
  obtain ⟨s₂, hopen, heq⟩ := bind_eq_ok.mp hnew
  cases heq
  obtain ⟨hg, hisg, use₁, hext₁, hf₁⟩ := allocCacheInode_ok hok halloc
  obtain ⟨hfull, -, use', hext', hf'⟩ := openFileLoop_ok hext₁.ok hisg hf₁ hopen
  exact ⟨hg, hext'.isInode g hisg, hfull, use', hext₁.trans hext', hf'⟩

theorem newLink_ok {link : List UInt8} (hok : Ok s use) (hnew : s.newLink real link = .ok (g, s')) :
    g = s.nextIno ∧ ∃ use', Extends g s use s' use' ∧ FileIs s' use' g SFS_TYPE_LINK [link] := by
  obtain ⟨⟨h, s₁⟩, halloc, hnew⟩ := bind_eq_ok.mp hnew
  obtain ⟨s₂, hopen, heq⟩ := bind_eq_ok.mp hnew
  cases heq
  obtain ⟨hg, hisg, use₁, hext₁, hf₁⟩ := allocCacheInode_ok hok halloc
  obtain ⟨use', hext', hfile⟩ := addBlock_ok hext₁.ok hisg hopen
  exact ⟨hg, use', hext₁.trans hext', hfile _ [] link hf₁ rfl fun _ _ => rfl⟩

/-! ### Entries -/

/-- A block with an entry of a directory: the number of the file, its name, and what was in the static
`__entry` behind it. -/
def entryBlock (entry : Mem) (file : ℕ) (name : List UInt8) : List UInt8 :=
  (List.range SfsFs.sizeofName).map (SfsFs.fillEntry entry file name)

theorem length_entryBlock (entry : Mem) : (entryBlock entry f name).length = SfsFs.sizeofName := by
  rw [entryBlock, List.length_map, List.length_range]

/-- Only the number of links of an inode changes. -/
theorem keeps_nlinks (h : ℕ) (n : ℕ) : Keeps f s use
    (s.setInode h { s.inode h with inode := { (s.inode h).inode with nlinks := n } }) use := by
  by_cases hf : f = h
  · exact ⟨rfl, le_rfl, fun _ _ => rfl, fun _ _ => rfl, fun _ _ => rfl, n, hf ▸ update_self _ _ _⟩
  · exact ⟨rfl, le_rfl, fun _ _ => rfl, fun _ _ => rfl, fun _ _ => rfl, (s.inode f).inode.nlinks,
      update_of_ne hf _ _⟩

/-- **A new entry** of a directory is a new block. -/
theorem addEntry_ok (hok : Ok s use) (hg : s.IsInode g) (hf : s.IsInode f)
    (hadd : s.addEntry g f name = .ok s') : (s.inode g).inode.type = SFS_TYPE_DIR ∧
      name.length ≤ SFS_MAX_FNAME_LEN ∧ ∃ use', Extends g s use s' use' ∧
        ∀ ws, FileIs s use g SFS_TYPE_DIR ws →
          FileIs s' use' g SFS_TYPE_DIR (ws ++ [entryBlock s.entry f name]) := by
  obtain ⟨u, hu, hadd⟩ := bind_eq_ok.mp hadd
  obtain ⟨hdir, hname⟩ := require_eq_ok.mp hu
  obtain ⟨s₂, hblock, heq⟩ := bind_eq_ok.mp hadd
  have hkeep : ∀ h, Keeps h s use { s with entry := SfsFs.fillEntry s.entry f name } use := fun h =>
    ⟨rfl, le_rfl, fun _ _ => rfl, fun _ _ => rfl, fun _ _ => rfl, (s.inode h).inode.nlinks, rfl⟩
  obtain ⟨use', hext, hfile⟩ := addBlock_ok (hok.setImg s.img (SfsFs.fillEntry s.entry f name)) hg hblock
  injection heq with heq
  subst heq
  have hrefs := hext.ok.refs f (hext.isInode f hf)
  have hrefs' : RefsOk s₂ use' f
      { (s₂.inode f).inode with nlinks := ((s₂.inode f).inode.nlinks + 1) % 2 ^ 16 } :=
    ⟨hrefs.indirect, hrefs.dbIndirect, hrefs.entries⟩
  refine ⟨hdir, hname, use', ⟨hext.ok.setInode hrefs', ?_, ?_, ?_⟩, ?_⟩
  · intro h hh
    exact (hkeep h).trans ((hext.keeps h hh).trans (keeps_nlinks _ _))
  · intro h hh
    exact hext.isInode h hh
  · intro h hh
    exact hext.inodes h hh
  · intro ws hws
    have hws' := hws.keep (hok.refs g hg) (hkeep g)
    have hblocks := hfile _ ws (entryBlock s.entry f name) hws' (length_entryBlock _) ?_
    · exact hblocks.keep (hext.ok.refs g (hext.isInode g hg)) (keeps_nlinks _ _)
    · intro k hk
      rw [entryBlock, List.getD_eq_getElem _ _ (by rw [List.length_map, List.length_range]; exact hk),
        List.getElem_map, List.getElem_range]

/-! ### Runs -/

/-- The block that a call adds to the directory `d`. -/
def Call.entry (s : SfsFs) (d : ℕ) : Call → List (List UInt8)
  | .addEntry current file name => if current = d then [entryBlock s.entry file name] else []
  | _ => []

theorem Ok.lt_nextIno (hok : Ok s use) (hg : s.IsInode g) : g < s.nextIno := by
  obtain ⟨i, hi⟩ := hg
  have hfirst := hok.first_le
  rcases (hok.inodes i g hi).2 with hroot | hhas
  · rw [SfsFs.first, SFS_BLKN_FREEMAP] at hfirst
    rw [hroot, SFS_BLKN_ROOT]
    omega
  · exact hhas.2.1

theorem Ok.inode_ne_zero (hok : Ok s use) (hg : s.IsInode g) : g ≠ 0 := by
  obtain ⟨i, hi⟩ := hg
  rintro rfl
  rcases (hok.inodes i 0 hi).2 with hroot | hhas
  · exact absurd hroot (by decide)
  · have hfirst := hhas.1
    rw [SfsFs.first, SFS_BLKN_FREEMAP] at hfirst
    omega

/-- What a call does to the file `f`. -/
structure Follows (f : ℕ) (s : SfsFs) (use : ℕ → Use) (call : Call) (s' : SfsFs)
    (use' : ℕ → Use) : Prop where
  keeps : (s.inode f).inode.type ≠ SFS_TYPE_DIR → Keeps f s use s' use'
  entries : ∀ ws, FileIs s use f SFS_TYPE_DIR ws → FileIs s' use' f SFS_TYPE_DIR (ws ++ call.entry s f)

/-- What a call does to all files; a new directory has no entries yet. -/
structure CallOk (s : SfsFs) (use : ℕ → Use) (call : Call) (s' : SfsFs) (use' : ℕ → Use) : Prop where
  ok : Ok s' use'
  ninos : s'.ninos = s.ninos
  isInode : ∀ h, s.IsInode h → s'.IsInode h
  follows : ∀ f, s.IsInode f → Follows f s use call s' use'
  new : ∀ h, s'.IsInode h → s.IsInode h ∨
    ∃ type ws, FileIs s' use' h type ws ∧ (type = SFS_TYPE_DIR → ws = [])

theorem Extends.follows (h : Extends g s use s' use') (hok : Ok s use) (hf : s.IsInode f)
    (hne : f ≠ g) (hcall : call.entry s f = []) : Follows f s use call s' use' := by
  refine ⟨fun _ => h.keeps f hne, ?_⟩
  intro ws hws
  rw [hcall, List.append_nil]
  exact hws.keep (hok.refs f hf) (h.keeps f hne)

/-- A call that makes a new file. -/
theorem Extends.callOk (h : Extends s.nextIno s use s' use') (hok : Ok s use)
    (hfile : FileIs s' use' s.nextIno type ws) (hdir : type = SFS_TYPE_DIR → ws = [])
    (hcall : ∀ d, call.entry s d = []) : CallOk s use call s' use' := by
  refine ⟨h.ok, h.ninos, h.isInode, ?_, ?_⟩
  · intro f hf
    exact h.follows hok hf (Nat.ne_of_lt (hok.lt_nextIno hf)) (hcall f)
  · intro f hf
    refine (h.inodes f hf).imp_right ?_
    rintro rfl
    exact ⟨type, ws, hfile, hdir⟩

/-- **Every call** leaves a file alone, or adds its entry to the directory. -/
theorem Runs.callOk (hok : Ok s use) (hrun : Runs s call s') :
    ∃ use', CallOk s use call s' use' := by
  obtain ⟨hvalid, hrun⟩ := hrun
  cases call with
  | newDir real =>
    rw [Call.run, map_eq_ok] at hrun
    obtain ⟨⟨g, s₁⟩, halloc, rfl⟩ := hrun
    obtain ⟨rfl, -, use', hext, hfile⟩ := allocCacheInode_ok hok halloc
    exact ⟨use', hext.callOk hok hfile (fun _ => rfl) fun _ => rfl⟩
  | newFile real chunks =>
    rw [Call.run, map_eq_ok] at hrun
    obtain ⟨⟨g, s₁⟩, hnew, rfl⟩ := hrun
    obtain ⟨rfl, -, -, use', hext, hfile⟩ := newFile_ok hok hnew
    exact ⟨use', hext.callOk hok hfile (fun htype => absurd htype (by decide)) fun _ => rfl⟩
  | newLink real link =>
    rw [Call.run, map_eq_ok] at hrun
    obtain ⟨⟨g, s₁⟩, hnew, rfl⟩ := hrun
    obtain ⟨rfl, use', hext, hfile⟩ := newLink_ok hok hnew
    exact ⟨use', hext.callOk hok hfile (fun htype => absurd htype (by decide)) fun _ => rfl⟩
  | addEntry current file name =>
    obtain ⟨hcurrent, hfile, -⟩ := hvalid
    obtain ⟨hdir, -, use', hext, hentry⟩ := addEntry_ok hok hcurrent hfile hrun
    refine ⟨use', hext.ok, hext.ninos, hext.isInode, ?_, ?_⟩
    · intro f hf
      by_cases hc : f = current
      · subst hc
        refine ⟨fun htype => absurd hdir htype, ?_⟩
        intro ws hws
        rw [Call.entry, if_pos rfl]
        exact hentry ws hws
      · exact hext.follows hok hf hc (if_neg (Ne.symm hc))
    · intro h hh
      rcases hext.inodes h hh with hold | rfl
      · exact Or.inl hold
      · exact Or.inl hcurrent

/-- The inode of the root has a number. -/
theorem allocCacheInode_root (halloc : s.allocCacheInode 0 SFS_BLKN_ROOT type = .ok (g, s')) :
    s'.inode SFS_BLKN_ROOT = ⟨⟨0, type, 0, 0, fun _ => 0, 0, 0⟩, 0, none, none⟩ ∧
      s'.inodes = update s.inodes (hash64 0) (SFS_BLKN_ROOT :: s.inodes (hash64 0)) ∧
      s'.blocks = s.blocks ∧ s'.ninos = s.ninos ∧ s'.nextIno = s.nextIno ∧
      s'.unusedBlocks = s.unusedBlocks := by
  obtain ⟨r, hr, heq⟩ := bind_eq_ok.mp halloc
  rw [if_pos (by decide)] at hr
  cases hr
  cases heq
  refine ⟨?_, rfl, rfl, rfl, rfl, rfl⟩
  have hself : ∀ ci, update s.inode SFS_BLKN_ROOT ci SFS_BLKN_ROOT = ci := fun ci =>
    update_self _ _ _
  exact hself _

/-- The root directory of a new image. -/
theorem createSfs_ok {nblks : ℕ} {img : ℕ → Mem} (hcreate : SfsFs.createSfs nblks img = .ok s) :
    s.ninos ≤ nblks ∧ (∀ d, s.IsInode d ↔ d = SFS_BLKN_ROOT) ∧
      ∃ use, Ok s use ∧ FileIs s use SFS_BLKN_ROOT SFS_TYPE_DIR [] := by
  obtain ⟨u, hu, heq⟩ := bind_eq_ok.mp hcreate
  have hsmall := require_eq_ok.mp hu
  obtain ⟨⟨g, s₁⟩, halloc, heq⟩ := bind_eq_ok.mp heq
  injection heq with heq
  subst heq
  have hmin : (if nblks % 2 ^ 32 > SFS_MAX_NBLKS then SFS_MAX_NBLKS else nblks % 2 ^ 32) ≤
      min nblks SFS_MAX_NBLKS := by
    split <;> omega
  generalize (if nblks % 2 ^ 32 > SFS_MAX_NBLKS then SFS_MAX_NBLKS else nblks % 2 ^ 32) = ninos
    at hsmall hmin halloc
  obtain ⟨hinode, hinodes, hblocks, hninos, hnext, hunused⟩ := allocCacheInode_root halloc
  dsimp only at hinodes hblocks hninos hnext hunused
  have hmem : ∀ {i h}, h ∈ s₁.inodes i ↔ i = hash64 0 ∧ h = SFS_BLKN_ROOT := by
    intro i h
    rw [hinodes]
    by_cases hi : i = hash64 0
    · rw [hi, update_self, List.mem_singleton, and_iff_right rfl]
    · rw [update_of_ne hi]
      exact iff_of_false List.not_mem_nil fun hand => hi hand.1
  have hfirst : s₁.first = s₁.nextIno := by
    rw [SfsFs.first, hninos, hnext]
    rfl
  refine ⟨?_, fun d => ⟨fun hd => hd.elim fun i hi => (hmem.mp hi).2, fun hd => ⟨hash64 0, hmem.mpr ⟨rfl, hd⟩⟩⟩,
    fun _ => .inode,
    ⟨hfirst.le, ?_, ?_, ?_, ?_, ?_, ?_, ?_⟩, ⟨?_, ?_, ?_, ?_, Nat.zero_le _, List.forall_mem_nil _, ?_⟩⟩
  · exact hninos ▸ hmin.trans (min_le_left _ _)
  · rw [hnext, hninos]
    exact (Nat.lt_of_not_le hsmall).le
  · exact hninos ▸ hmin.trans (min_le_right _ _)
  · rw [hunused, hnext, hninos]
    exact Nat.sub_add_cancel (Nat.lt_of_not_le hsmall).le
  · intro i h hh
    obtain ⟨rfl, rfl⟩ := hmem.mp hh
    exact ⟨hash32_lt _, Or.inl rfl⟩
  · intro i c hc
    rw [hblocks] at hc
    exact absurd hc List.not_mem_nil
  · rintro c h (hhas | hhas)
    · cases hhas.2.2
    · cases hhas.2.2
  · rintro h ⟨i, hi⟩
    obtain ⟨-, rfl⟩ := hmem.mp hi
    rw [hinode]
    exact RefsOk.empty rfl rfl
  · rw [hinode]
  · rw [hinode]
    rfl
  · rw [hinode]
    rfl
  · rw [hinode]
    rfl
  · intro _
    rw [hinode]
    exact ⟨[], rfl, Mapped.empty rfl rfl, fun i hi => absurd hi (Nat.not_lt_zero i)⟩

/-- A file that is not a directory stays what it is, while the calls go on. -/
theorem trace_file (hrun : Trace Runs s calls s') (hok : Ok s use) (hi : s.IsInode f)
    (hf : FileIs s use f type ws) (htype : type ≠ SFS_TYPE_DIR) :
    s'.ninos = s.ninos ∧ s'.IsInode f ∧ ∃ use', Ok s' use' ∧ FileIs s' use' f type ws := by
  induction hrun with
  | nil => exact ⟨rfl, hi, use, hok, hf⟩
  | snoc _ hstep ih =>
    obtain ⟨hninos, hi₁, use₁, hok₁, hf₁⟩ := ih
    obtain ⟨use₂, hcall⟩ := Runs.callOk hok₁ hstep
    have hkeeps := (hcall.follows f hi₁).keeps (by rw [hf₁.type]; exact htype)
    exact ⟨hcall.ninos.trans hninos, hcall.isInode f hi₁, use₂, hcall.ok,
      hf₁.keep (hok₁.refs f hi₁) hkeeps⟩

/-- From any state, the calls keep the uses of the blocks. -/
theorem trace_ok (hrun : Trace Runs s calls s') (hok : Ok s use) :
    s'.ninos = s.ninos ∧ ∃ use', Ok s' use' := by
  induction hrun with
  | nil => exact ⟨rfl, use, hok⟩
  | snoc _ hstep ih =>
    obtain ⟨hninos, use₁, hok₁⟩ := ih
    obtain ⟨use₂, hcall⟩ := Runs.callOk hok₁ hstep
    exact ⟨hcall.ninos.trans hninos, use₂, hcall.ok⟩

end Ucore.Mksfs
