import Ucore.Mksfs.Progress
import Ucore.Mksfs.ReadBack
import Ucore.Sfs.Directory

/-!
# Directories from the host to the kernel

`add_entry` writes `sizeof(entry->name)` bytes of its entry, which starts with the number of the file:
the last four bytes of the name are not written.  **`directory_round_trip`**: the kernel finds in a
directory what `mksfs` has entered if and only if no name has more than 252 bytes, and the kernel can
map the blocks of the directory.
-/

namespace Ucore.Mksfs

open Fallible Function Memory Sfs Transition

variable {s s' s₀ : SfsFs} {use use' : ℕ → Use} {d f g k n nblks : ℕ} {img₀ img : ℕ → Mem}
  {call : Call} {calls : List Call} {ws : List (List UInt8)} {name : List UInt8}

/-! ### The entries of a directory -/

/-- The entry that a call adds to the directory `d`. -/
def Call.entryOf (d : ℕ) : Call → List (ℕ × List UInt8)
  | .addEntry current file name => if current = d then [(file, name)] else []
  | _ => []

/-- What has been entered into the directory `d`. -/
def entries (d : ℕ) (calls : List Call) : List (ℕ × List UInt8) := calls.flatMap (Call.entryOf d)

theorem entries_snoc (d : ℕ) (calls : List Call) (call : Call) :
    entries d (calls ++ [call]) = entries d calls ++ call.entryOf d := by
  rw [entries, List.flatMap_append, List.flatMap_singleton]
  rfl

/-- The block holds the entry. -/
def IsEntryBlock (w : List UInt8) (e : ℕ × List UInt8) : Prop :=
  ∃ entry, w = entryBlock entry e.1 e.2

/-- The entry of a call is in its block. -/
theorem entry_entryOf (s : SfsFs) (d : ℕ) (call : Call) :
    List.Forall₂ IsEntryBlock (call.entry s d) (call.entryOf d) := by
  cases call with
  | newDir real => exact .nil
  | newFile real chunks => exact .nil
  | newLink real link => exact .nil
  | addEntry current file name =>
    rw [Call.entry, Call.entryOf]
    by_cases hc : current = d
    · rw [if_pos hc, if_pos hc]
      exact .cons ⟨s.entry, rfl⟩ .nil
    · rw [if_neg hc, if_neg hc]
      exact .nil

/-- The directories have the blocks with their entries. -/
structure DirsOk (s : SfsFs) (use : ℕ → Use) (calls : List Call) : Prop where
  dirs : ∀ d, s.IsInode d → (s.inode d).inode.type = SFS_TYPE_DIR →
    ∃ ws, FileIs s use d SFS_TYPE_DIR ws ∧ List.Forall₂ IsEntryBlock ws (entries d calls)
  fresh : ∀ d, ¬s.IsInode d → entries d calls = []
  valid : ∀ d, ∀ e ∈ entries d calls, s.IsInode e.1 ∧ 0 ∉ e.2 ∧
    e.2.length ≤ Sfs.SFS_MAX_FNAME_LEN

/-- What `add_entry` enters. -/
theorem mem_entryOf {e : ℕ × List UInt8} (hrun : Runs s call s') (he : e ∈ call.entryOf d) :
    s.IsInode d ∧ s.IsInode e.1 ∧ 0 ∉ e.2 ∧ e.2.length ≤ Sfs.SFS_MAX_FNAME_LEN := by
  obtain ⟨hvalid, hrun⟩ := hrun
  cases call with
  | newDir real => exact absurd he List.not_mem_nil
  | newFile real chunks => exact absurd he List.not_mem_nil
  | newLink real link => exact absurd he List.not_mem_nil
  | addEntry current file name =>
    obtain ⟨hcurrent, hfile, hzero⟩ := hvalid
    obtain ⟨u, hu, -⟩ := bind_eq_ok.mp hrun
    rw [Call.entryOf] at he
    split at he
    case isTrue hc =>
      rw [List.mem_singleton.mp he]
      exact ⟨hc ▸ hcurrent, hfile, hzero, (require_eq_ok.mp hu).2⟩
    case isFalse => exact absurd he List.not_mem_nil

/-- **The step lemma.** -/
theorem DirsOk.step (h : DirsOk s use calls) (hok : Ok s use) (hrun : Runs s call s') :
    ∃ use', CallOk s use call s' use' ∧ DirsOk s' use' (calls ++ [call]) := by
  obtain ⟨use', hcall⟩ := hrun.callOk hok
  have hnone : ∀ d, ¬s.IsInode d → entries d (calls ++ [call]) = [] := by
    intro d hd
    rw [entries_snoc, h.fresh d hd, List.nil_append, List.eq_nil_iff_forall_not_mem]
    exact fun e he => hd (mem_entryOf hrun he).1
  refine ⟨use', hcall, ?_, ?_, ?_⟩
  · intro d hd htype
    by_cases hold : s.IsInode d
    · have hfol := hcall.follows d hold
      have htype' : (s.inode d).inode.type = SFS_TYPE_DIR := by
        by_contra hne
        obtain ⟨links, hlinks⟩ := (hfol.keeps hne).inode
        rw [hlinks] at htype
        exact hne htype
      obtain ⟨ws, hws, hentries⟩ := h.dirs d hold htype'
      refine ⟨_, hfol.entries ws hws, ?_⟩
      rw [entries_snoc]
      exact List.rel_append hentries (entry_entryOf s d call)
    · obtain ⟨type, ws, hws, hempty⟩ := (hcall.new d hd).resolve_left hold
      rw [hws.type] at htype
      subst htype
      refine ⟨ws, hws, ?_⟩
      rw [hnone d hold, hempty rfl]
      exact .nil
  · exact fun d hd => hnone d fun hold => hd (hcall.isInode d hold)
  · intro d e he
    rw [entries_snoc] at he
    rcases List.mem_append.mp he with he | he
    · obtain ⟨hi, hname⟩ := h.valid d e he
      exact ⟨hcall.isInode _ hi, hname⟩
    · obtain ⟨-, hi, hname⟩ := mem_entryOf hrun he
      exact ⟨hcall.isInode _ hi, hname⟩

/-- **The run lemma.** -/
theorem dirsOk_trace (hcreate : SfsFs.createSfs nblks img₀ = .ok s₀) (hrun : Trace Runs s₀ calls s) :
    s.ninos ≤ nblks ∧ ∃ use, Ok s use ∧ DirsOk s use calls := by
  induction hrun with
  | nil =>
    obtain ⟨hle, hroot, use, hok, hfile⟩ := createSfs_ok hcreate
    refine ⟨hle, use, hok, ?_, fun _ _ => rfl, fun d e he => absurd he List.not_mem_nil⟩
    intro d hd _
    rw [(hroot d).mp hd]
    exact ⟨[], hfile, .nil⟩
  | snoc _ hstep ih =>
    obtain ⟨hle, use, hok, hdirs⟩ := ih
    obtain ⟨use', hcall, hdirs'⟩ := hdirs.step hok hstep
    exact ⟨hcall.ninos ▸ hle, use', hcall.ok, hdirs'⟩

/-! ### Names -/

/-- The bytes of an entry that the kernel reads. -/
theorem entryAt_entryBlock {mem : Mem} (hf : f < 2 ^ 32) (hzero : 0 ∉ name) (entry : Mem)
    (hmem : ∀ k < SFS_BLKSIZE, mem k = (entryBlock entry f name).getD k 0) :
    EntryAt mem f (name.take 252) := by
  have hlow : ∀ k < 256, mem k = SfsFs.fillEntry entry f name k := by
    intro k hk
    rw [hmem k (by rw [SFS_BLKSIZE]; omega), entryBlock]
    rw [List.getD_eq_getElem _ _ (by rw [List.length_map, List.length_range]; exact hk),
      List.getElem_map, List.getElem_range]
  have hhigh : ∀ k < 4096, 256 ≤ k → mem k = 0 := by
    intro k hk hk'
    rw [hmem k hk, List.getD_eq_default]
    rw [length_entryBlock]
    exact hk'
  constructor
  · apply read32_eq hf
    intro k hk
    rw [Nat.zero_add, hlow k (by omega), SfsFs.fillEntry, memcpy_of_not (by omega),
      memcpy_of_mem (Nat.zero_le _) (by omega), Nat.sub_zero]
  · have hname : ∀ j < 252, j ≤ name.length → mem (4 + j) = (name ++ [0]).getD j 0 := by
      intro j hj hle
      rw [hlow _ (by omega), SfsFs.fillEntry, memcpy_of_mem (by omega) (by omega),
        Nat.add_sub_cancel_left, bytesOf]
    have hlen : (name.take 252).length = min 252 name.length := List.length_take
    have hupdate : ∀ j < 253, update mem (offsetName + Sfs.SFS_MAX_FNAME_LEN) 0 (offsetName + j) =
        mem (4 + j) := by
      intro j hj
      rw [update_of_ne (by rw [offsetName, Sfs.SFS_MAX_FNAME_LEN]; omega), offsetName]
    apply cString_eq
    · intro j hj
      rw [hupdate j (by omega), hname j (by omega) (by omega), List.getD_append _ _ _ _ (by omega),
        List.getD_eq_getElem?_getD, List.getD_eq_getElem?_getD, List.getElem?_take_of_lt (by omega)]
    · exact fun hin => hzero (List.mem_of_mem_take hin)
    · rw [hupdate _ (by omega), hlen]
      by_cases hshort : name.length < 252
      · rw [Nat.min_eq_right hshort.le, hname _ hshort le_rfl, List.getD_append_right _ _ _ _ le_rfl,
          Nat.sub_self]
        rfl
      · rw [Nat.min_eq_left (Nat.not_lt.mp hshort)]
        exact hhigh _ (by omega) le_rfl
    · rw [hlen, Sfs.SFS_MAX_FNAME_LEN]
      omega

/-- There are more names than entries. -/
theorem exists_other_name (names : List (List UInt8)) (hlen : names.length < 40000) :
    ∃ name : List UInt8, name.length ≤ Sfs.SFS_MAX_FNAME_LEN ∧ 0 ∉ name ∧ name ∉ names := by
  let digit : ℕ → UInt8 := fun n => UInt8.ofNat (n % 255 + 1)
  let other : ℕ → List UInt8 := fun n => [digit n, digit (n / 255), digit (n / 65025)]
  have hdigit : ∀ n, (digit n).toNat = n % 255 + 1 := by
    intro n
    show (UInt8.ofNat (n % 255 + 1)).toNat = _
    rw [UInt8.toNat_ofNat']
    omega
  have hne : ∀ n, 0 ≠ digit n := by
    intro n heq
    have hzero := hdigit n
    rw [← heq] at hzero
    exact absurd hzero (by simp)
  by_contra hall
  have hsub : (Finset.range 40000).image other ⊆ names.toFinset := by
    intro name hname
    obtain ⟨n, -, rfl⟩ := Finset.mem_image.mp hname
    rw [List.mem_toFinset]
    by_contra hnot
    exact hall ⟨other n, show 3 ≤ Sfs.SFS_MAX_FNAME_LEN by decide, by simp [other, hne], hnot⟩
  have hinj : Set.InjOn other (Finset.range 40000 : Set ℕ) := by
    intro a ha b hb heq
    rw [Finset.coe_range, Set.mem_Iio] at ha hb
    simp only [other, List.cons.injEq, and_true] at heq
    have h₀ := hdigit a
    have h₁ := hdigit (a / 255)
    have h₂ := hdigit (a / 65025)
    rw [heq.1, hdigit] at h₀
    rw [heq.2.1, hdigit] at h₁
    rw [heq.2.2, hdigit] at h₂
    omega
  have hcard := Finset.card_le_card hsub
  rw [Finset.card_image_of_injOn hinj, Finset.card_range] at hcard
  exact absurd (hcard.trans (List.toFinset_card_le names)) (by omega)

/-! ### The round trip -/

/-- The kernel finds the entries, and no others. -/
def FindsAll (fs : Fs) (sin : Sfs.Inode) (es : List (ℕ × List UInt8)) : Prop :=
  (∀ e ∈ es, ∀ entry, ∃ r, sfsDirentSearch fs sin e.2 (some entry) = .ok (r, fs, sin) ∧
    r.ret = 0 ∧ r.ino = some e.1) ∧
  ∀ name, name.length ≤ Sfs.SFS_MAX_FNAME_LEN → 0 ∉ name → name ∉ es.map Prod.snd →
    ∀ entry, ∃ r, sfsDirentSearch fs sin name (some entry) = .ok (r, fs, sin) ∧ r.ret = -E_NOENT

/-- The entries as they are on the device. -/
def cut (es : List (ℕ × List UInt8)) : List (ℕ × List UInt8) := es.map fun e => (e.1, e.2.take 252)

/-- A directory that the kernel can map: the names are found up to 252 bytes. -/
theorem search_short {es : List (ℕ × List UInt8)} (hf : FileIs s use d SFS_TYPE_DIR ws)
    (himg : ImageIs s use img) (hok : Ok s use) (hi : s.IsInode d) (hd : s.ninos ≤ n)
    (hes : List.Forall₂ IsEntryBlock ws es) (hvalid : ∀ e ∈ es, s.IsInode e.1 ∧ 0 ∉ e.2 ∧
      e.2.length ≤ Sfs.SFS_MAX_FNAME_LEN)
    (hlen : es.length ≤ maxBlocks) (hname : name.length ≤ Sfs.SFS_MAX_FNAME_LEN) (entry : Mem) :
    ∃ r, sfsDirentSearch (mounted (deviceOf n img)).fs ⟨decodeInode (img d), d, false⟩ name
      (some entry) = .ok (r, (mounted (deviceOf n img)).fs, ⟨decodeInode (img d), d, false⟩) ∧
        Finds (cut es) name r := by
  obtain ⟨-, htype, hblocks⟩ := hf.decode himg hi (by decide)
  have hws := hes.length_eq
  obtain ⟨bs, hfound⟩ := hf.found himg hok hi (hws ▸ hlen) (d := n)
  have hfile := hfound.fileOk himg hok hd hblocks (hws ▸ hlen)
  have hcut : (cut es).length = es.length := List.length_map _
  have hlive : live (cut es) = cut es := by
    apply live_eq_self
    intro e he
    obtain ⟨e', he', rfl⟩ := List.mem_map.mp he
    exact hok.inode_ne_zero (hvalid e' he').1
  have hdir : DirIs (mounted (deviceOf n img)).fs ⟨decodeInode (img d), d, false⟩ (cut es) := by
    refine ⟨hfile, htype, (hcut.trans hws.symm).trans hblocks.symm, ?_⟩
    intro j hj
    rw [hcut] at hj
    obtain ⟨entry, hblock⟩ := hes.get (hws ▸ hj) hj
    obtain ⟨hinode, hzero, -⟩ := hvalid _ (List.getElem_mem hj)
    simp only [cut, List.getElem_map]
    apply entryAt_entryBlock (hok.lt (hok.lt_nextIno hinode)) hzero entry
    intro k hk
    rw [hfound.block j (by omega), hfound.bytes j (by omega) k hk, List.getD_eq_getElem ws]
    exact congrArg (fun w => w.getD k 0) hblock
  rw [← hlive]
  exact sfsDirentSearch_spec hdir hname entry

theorem cut_eq {es : List (ℕ × List UInt8)} (h : ∀ e ∈ es, e.2.length ≤ 252) : cut es = es := by
  conv_rhs => rw [← List.map_id es]
  apply List.map_congr_left
  intro e he
  rw [List.take_of_length_le (h e he)]
  rfl

/-- With distinct names, an entry is found by its name. -/
theorem find_entry {es : List (ℕ × List UInt8)} (hnodup : (es.map Prod.snd).Nodup)
    {e : ℕ × List UInt8} (he : e ∈ es) : es.find? (fun e' => e'.2 = e.2) = some e := by
  cases hfind : es.find? (fun e' => e'.2 = e.2) with
  | none =>
    have hnone := List.find?_eq_none.mp hfind e he
    exact absurd (decide_eq_true rfl) hnone
  | some e' =>
    have hname : e'.2 = e.2 := by simpa using List.find?_some hfind
    have hmem := List.mem_of_find?_eq_some hfind
    rw [List.inj_on_of_nodup_map hnodup hmem he hname]

/-- **What `mksfs` enters into a directory is found** if and only if the names have up to 252 bytes and
the inode and one table have numbers for the blocks. -/
theorem FileIs.finds_iff {es : List (ℕ × List UInt8)} (hf : FileIs s use d SFS_TYPE_DIR ws)
    (himg : ImageIs s use img) (hok : Ok s use) (hi : s.IsInode d) (hd : s.ninos ≤ n)
    (hes : List.Forall₂ IsEntryBlock ws es) (hvalid : ∀ e ∈ es, s.IsInode e.1 ∧ 0 ∉ e.2 ∧
      e.2.length ≤ Sfs.SFS_MAX_FNAME_LEN)
    (hnodup : (es.map Prod.snd).Nodup) :
    FindsAll (mounted (deviceOf n img)).fs ⟨decodeInode (img d), d, false⟩ es ↔
      es.length ≤ 1036 ∧ ∀ e ∈ es, e.2.length ≤ 252 := by
  obtain ⟨-, -, hblocks⟩ := hf.decode himg hi (by decide)
  have hws := hes.length_eq
  have hmax : maxBlocks = 1036 := rfl
  constructor
  · rintro ⟨hfound, hother⟩
    have hlen : es.length ≤ maxBlocks := by
      by_contra hlong
      have hbound := hf.bound
      have hLN : SFS_LN_NBLKS = 32768 := rfl
      obtain ⟨name, hle, hzero, hnot⟩ := exists_other_name (es.map Prod.snd)
        (by rw [List.length_map]; omega)
      obtain ⟨r, hr, hret⟩ := hother name hle hzero hnot fun _ => 0
      rw [sfsDirentSearch, ensure_pos hle, ok_bind] at hr
      have hsuccess := direntSearchLoop_long (Nat.zero_le _) (by dsimp only; omega) (Nat.zero_add _) _ _
        hr
      rw [hsuccess] at hret
      exact absurd hret (by decide)
    refine ⟨hmax ▸ hlen, ?_⟩
    intro e he
    by_contra hlong
    obtain ⟨r, hr, hret, -⟩ := hfound e he fun _ => 0
    obtain ⟨r', hr', hfinds⟩ := search_short hf himg hok hi hd hes hvalid hlen (hvalid e he).2.2 fun _ => 0
    rw [hr] at hr'
    cases hr'
    have hnone : (cut es).find? (fun e' => e'.2 = e.2) = none := by
      apply List.find?_eq_none.mpr
      intro e' he'
      obtain ⟨e'', -, rfl⟩ := List.mem_map.mp he'
      intro heq
      have hsame : e''.2.take 252 = e.2 := of_decide_eq_true heq
      have hshort := List.length_take_le 252 e''.2
      rw [hsame] at hshort
      exact hlong hshort
    rw [Finds, hnone] at hfinds
    rw [hfinds.1] at hret
    exact absurd hret (by decide)
  · rintro ⟨hlen, hshort⟩
    have hsearch : ∀ name : List UInt8, name.length ≤ Sfs.SFS_MAX_FNAME_LEN → ∀ entry, _ := fun name hle entry =>
      search_short hf himg hok hi hd hes hvalid (hmax ▸ hlen) hle entry
    rw [cut_eq hshort] at hsearch
    constructor
    · intro e he entry
      obtain ⟨r, hr, hfinds⟩ := hsearch e.2 (hvalid e he).2.2 entry
      rw [Finds, find_entry hnodup he] at hfinds
      exact ⟨r, hr, hfinds⟩
    · intro name hle _ hnot entry
      obtain ⟨r, hr, hfinds⟩ := hsearch name hle entry
      have hnone : es.find? (fun e => e.2 = name) = none := by
        apply List.find?_eq_none.mpr
        intro e he heq
        exact hnot (List.mem_map.mpr ⟨e, he, of_decide_eq_true heq⟩)
      rw [Finds, hnone] at hfinds
      exact ⟨r, hr, hfinds.1⟩

/-- **Directories of the host are read back**, up to names of 252 bytes and 1036 entries. -/
theorem directory_round_trip (hcreate : SfsFs.createSfs nblks img₀ = .ok s₀)
    (hrun : Trace Runs s₀ calls s) (hd : s.IsInode d) (hdir : (s.inode d).inode.type = SFS_TYPE_DIR)
    (hnodup : ((entries d calls).map Prod.snd).Nodup) :
    ∃ img m, s.closeSfs = .ok img ∧ sfsDoMount (deviceOf nblks img) = .ok (.ok m) ∧
      (FindsAll m.fs ⟨decodeInode (m.fs.disk d), d, false⟩ (entries d calls) ↔
        (entries d calls).length ≤ 1036 ∧ ∀ e ∈ entries d calls, e.2.length ≤ 252) := by
  obtain ⟨hle, use, hok, hdirs⟩ := dirsOk_trace hcreate hrun
  obtain ⟨ws, hws, hes⟩ := hdirs.dirs d hd hdir
  obtain ⟨img, hclose, himg⟩ := closeSfs_ok hok
  have hmount := sfsDoMount_iff.mpr ⟨(himg.fsOk hok hle).1, rfl⟩
  exact ⟨img, _, hclose, hmount, hws.finds_iff himg hok hd hle hes (hdirs.valid d) hnodup⟩

/-- The root directory with its entry for itself. -/
theorem directory_round_trip_root : ∃ s₀ s img m, SfsFs.createSfs 5 (fun _ _ => 0) = .ok s₀ ∧
    s₀.addEntry SFS_BLKN_ROOT SFS_BLKN_ROOT [46] = .ok s ∧ s.closeSfs = .ok img ∧
    sfsDoMount (deviceOf 5 img) = .ok (.ok m) ∧
    FindsAll m.fs ⟨decodeInode (m.fs.disk SFS_BLKN_ROOT), SFS_BLKN_ROOT, false⟩ [(1, [46])] := by
  have hruns : ∃ s₀ s, SfsFs.createSfs 5 (fun _ _ => 0) = .ok s₀ ∧
      s₀.addEntry SFS_BLKN_ROOT SFS_BLKN_ROOT [46] = .ok s ∧ s₀.IsInode SFS_BLKN_ROOT ∧
      s.IsInode SFS_BLKN_ROOT ∧ (s.inode SFS_BLKN_ROOT).inode.type = SFS_TYPE_DIR :=
    ⟨_, _, rfl, rfl, ⟨hash64 0, List.mem_cons_self⟩, ⟨hash64 0, List.mem_cons_self⟩, rfl⟩
  obtain ⟨s₀, s, hs₀, hs, hroot₀, hroot, htype⟩ := hruns
  have hrun : Runs s₀ (.addEntry SFS_BLKN_ROOT SFS_BLKN_ROOT [46]) s :=
    ⟨⟨hroot₀, hroot₀, by decide⟩, hs⟩
  obtain ⟨img, m, hclose, hmount, hiff⟩ := directory_round_trip hs₀ (Trace.nil.snoc hrun) hroot htype
    (by decide)
  exact ⟨s₀, s, img, m, hs₀, hs, hclose, hmount, hiff.mpr (by decide)⟩

/-- An empty file with a name of 253 bytes. -/
theorem long_name_not_found : ∃ s₀ s₁ s₂ f s₃ img m, SfsFs.createSfs 16 (fun _ _ => 0) = .ok s₀ ∧
    Trace Runs s₀ [.addEntry SFS_BLKN_ROOT SFS_BLKN_ROOT [46],
      .addEntry SFS_BLKN_ROOT SFS_BLKN_ROOT [46, 46]] s₁ ∧
    s₁.newFile 7 [] = .ok (f, s₂) ∧
    Runs s₂ (.addEntry SFS_BLKN_ROOT f (List.replicate 253 97)) s₃ ∧ s₃.closeSfs = .ok img ∧
    sfsDoMount (deviceOf 16 img) = .ok (.ok m) ∧
    ¬ FindsAll m.fs ⟨decodeInode (m.fs.disk SFS_BLKN_ROOT), SFS_BLKN_ROOT, false⟩
      [(SFS_BLKN_ROOT, [46]), (SFS_BLKN_ROOT, [46, 46]), (f, List.replicate 253 97)] := by
  have hcreate : ∃ s₀, SfsFs.createSfs 16 (fun _ _ => 0) = .ok s₀ ∧ s₀.nextIno = 3 ∧
      s₀.ninos = 16 ∧ Shape (s₀.inode SFS_BLKN_ROOT) :=
    ⟨_, rfl, rfl, rfl, fun _ => rfl, fun h => absurd h (by decide), fun _ => rfl⟩
  obtain ⟨s₀, hs₀, hnext₀, hninos₀, hshape₀⟩ := hcreate
  obtain ⟨use₀, hr₀⟩ := rootDir_createSfs hs₀ hshape₀
  obtain ⟨a, useA, hrunA, hrA, hnextA, hninosA⟩ := hr₀.addEntry [46] hr₀.isInode (by decide)
    (by decide) (by omega) (by decide)
  obtain ⟨s₁, use₁, hrun₁, hr₁, hnext₁, hninos₁⟩ := hrA.addEntry [46, 46] hrA.isInode
    (by decide) (by decide) (by omega) (by decide)
  obtain ⟨f, s₂, hnew, hnext₂, hninos₂⟩ := newFile_total (s := s₁) 7
    (fun chunk (h : chunk ∈ []) => absurd h List.not_mem_nil) (by rw [List.length_nil]; omega) (Nat.zero_le _)
  obtain ⟨use₂, hi, hr₂⟩ := hr₁.newFile hnew
  rw [List.length_nil] at hnext₂
  have hlong : (List.replicate 253 (97 : UInt8)).length = 253 := List.length_replicate
  have hzero : 0 ∉ List.replicate 253 (97 : UInt8) := fun h =>
    absurd (List.eq_of_mem_replicate h) (by decide)
  generalize List.replicate 253 (97 : UInt8) = name at hlong hzero
  obtain ⟨s₃, use₃, hrun₃, hr₃, -, -⟩ := hr₂.addEntry name hi
    (by rw [hlong]; decide) hzero (by omega) (by decide)
  have hbefore : Trace Runs s₀ [.addEntry SFS_BLKN_ROOT SFS_BLKN_ROOT [46],
      .addEntry SFS_BLKN_ROOT SFS_BLKN_ROOT [46, 46]] s₁ := (Trace.nil.snoc hrunA).snoc hrun₁
  -- the run with the calls for the file
  have hfile : Runs s₁ (.newFile 7 []) s₂ :=
    ⟨fun _ h => absurd h List.not_mem_nil, map_eq_ok.mpr ⟨_, hnew, rfl⟩⟩
  obtain ⟨hle, use, hok, hdirs⟩ := dirsOk_trace hs₀ ((hbefore.snoc hfile).snoc hrun₃)
  obtain ⟨links, hws, hroot⟩ := hr₃.file
  obtain ⟨ws, hws, hes⟩ := hdirs.dirs SFS_BLKN_ROOT hr₃.isInode hroot.type
  obtain ⟨img, hclose, himg⟩ := closeSfs_ok hok
  have hmount := sfsDoMount_iff.mpr ⟨(himg.fsOk hok hle).1, rfl⟩
  have hiff := hws.finds_iff himg hok hr₃.isInode hle hes (hdirs.valid _)
  have hentries : entries SFS_BLKN_ROOT ([.addEntry SFS_BLKN_ROOT SFS_BLKN_ROOT [46],
      .addEntry SFS_BLKN_ROOT SFS_BLKN_ROOT [46, 46]] ++ [.newFile 7 []] ++
      [.addEntry SFS_BLKN_ROOT f name]) =
        [(SFS_BLKN_ROOT, [46]), (SFS_BLKN_ROOT, [46, 46]), (f, name)] := rfl
  rw [hentries] at hiff
  have hnodup : ([(SFS_BLKN_ROOT, [46]), (SFS_BLKN_ROOT, [46, 46]), (f, name)].map
      Prod.snd).Nodup := by
    have h₁ : name ≠ [46] := fun h => absurd (h ▸ hlong) (by decide)
    have h₂ : name ≠ [46, 46] := fun h => absurd (h ▸ hlong) (by decide)
    simp [Ne.symm h₁, Ne.symm h₂]
  refine ⟨s₀, s₁, s₂, f, s₃, img, _, hs₀, hbefore, hnew, hrun₃, hclose, hmount, ?_⟩
  intro hfinds
  have hshort := ((hiff hnodup).mp hfinds).2 (f, name) (by simp)
  rw [hlong] at hshort
  exact absurd hshort (by decide)

end Ucore.Mksfs
