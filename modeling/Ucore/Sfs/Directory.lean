import Mathlib.Data.List.GetD
import Ucore.Sfs.Mount

/-!
# Directories (`lab8/kern/fs/sfs/sfs_inode.c`)

Each block of a directory holds one `struct sfs_disk_entry`.  `sfsDirentSearch` looks for a name in
the blocks of the directory; **`sfsDirentSearch_spec`** says that it finds the first entry with this
name.  A string is the list of its bytes without the terminator.
-/

namespace Ucore.Sfs

open Memory

variable {fs : Fs} {sin : Inode} {name : List UInt8} {i n b : ℕ} {entry mem : Mem}

def E_NOENT : ℤ := 16

def SFS_MAX_FNAME_LEN : ℕ := 255

/-- `sizeof(struct sfs_disk_entry)`; the name starts at `offsetName`. -/
def sizeofDiskEntry : ℕ := 260

def offsetName : ℕ := 4

/-- The string at `a`, in an array of `n` bytes. -/
def cString (mem : Mem) (a n : ℕ) : List UInt8 :=
  ((List.range n).map fun i => mem (a + i)).takeWhile (· ≠ 0)

/-- `sfs_dirent_read_nolock`: the result, and `*entry` after the call. -/
def sfsDirentRead (fs : Fs) (sin : Inode) (slot : ℕ) (entry : Mem) :
    Except Panic (ℤ × Fs × Inode × Mem) := do
  ensure (sin.din.type = SFS_TYPE_DIR ∧ slot < sin.din.blocks) .assertion
  match ← sfsBmapLoad fs sin slot with
  | (.error ret, fs, sin) => .ok (ret, fs, sin, entry)
  | (.ok ino, fs, sin) =>
    assertInuse fs ino
    let bytes ← sfsRbuf fs sizeofDiskEntry ino 0
    let entry := memcpy entry 0 bytes sizeofDiskEntry
    .ok (0, fs, sin, Function.update entry (offsetName + SFS_MAX_FNAME_LEN) 0)

/-- The result of `sfs_dirent_search_nolock`, and what it stores. -/
structure DirentSearch where
  ret : ℤ
  ino : Option ℕ
  slot : Option ℕ
  emptySlot : Option ℕ

/-- The loop of `sfs_dirent_search_nolock` over `n` slots from `i` on. -/
def direntSearchLoop (name : List UInt8) : ℕ → ℕ → Fs → Inode → Mem → ℕ →
    Except Panic (DirentSearch × Fs × Inode)
  | 0, _, fs, sin, _, emptySlot => .ok (⟨-E_NOENT, none, none, some emptySlot⟩, fs, sin)
  | n + 1, i, fs, sin, entry, emptySlot => do
    let (ret, fs, sin, entry) ← sfsDirentRead fs sin i entry
    if ret ≠ 0 then .ok (⟨ret, none, none, some emptySlot⟩, fs, sin)
    else if read32 entry 0 = 0 then direntSearchLoop name n (i + 1) fs sin entry i
    else if name = cString entry offsetName (SFS_MAX_FNAME_LEN + 1) then
      .ok (⟨ret, some (read32 entry 0), some i, some emptySlot⟩, fs, sin)
    else direntSearchLoop name n (i + 1) fs sin entry emptySlot

/-- `sfs_dirent_search_nolock`; `entry` is what `kmalloc` returned, `none` for `NULL`. -/
def sfsDirentSearch (fs : Fs) (sin : Inode) (name : List UInt8) (entry : Option Mem) :
    Except Panic (DirentSearch × Fs × Inode) := do
  ensure (name.length ≤ SFS_MAX_FNAME_LEN) .assertion
  match entry with
  | none => .ok (⟨-E_NO_MEM, none, none, none⟩, fs, sin)
  | some entry =>
    let nslots := sin.din.blocks
    direntSearchLoop name nslots 0 fs sin entry nslots

/-- The loop of `sfs_dirent_findino_nolock` over `n` slots from `i` on. -/
def direntFindinoLoop (ino : ℕ) : ℕ → ℕ → Fs → Inode → Mem → Except Panic (ℤ × Fs × Inode × Mem)
  | 0, _, fs, sin, entry => .ok (-E_NOENT, fs, sin, entry)
  | n + 1, i, fs, sin, entry => do
    let (ret, fs, sin, entry) ← sfsDirentRead fs sin i entry
    if ret ≠ 0 then .ok (ret, fs, sin, entry)
    else if read32 entry 0 = ino then .ok (0, fs, sin, entry)
    else direntFindinoLoop ino n (i + 1) fs sin entry

/-- `sfs_dirent_findino_nolock`: the result, and `*entry` after the call. -/
def sfsDirentFindino (fs : Fs) (sin : Inode) (ino : ℕ) (entry : Mem) :
    Except Panic (ℤ × Fs × Inode × Mem) :=
  direntFindinoLoop ino sin.din.blocks 0 fs sin entry

/-! ### Reading an entry -/

/-- The block holds an entry. -/
structure EntryAt (mem : Mem) (ino : ℕ) (name : List UInt8) : Prop where
  ino : read32 mem 0 = ino
  name : cString (Function.update mem (offsetName + SFS_MAX_FNAME_LEN) 0) offsetName
    (SFS_MAX_FNAME_LEN + 1) = name

theorem cString_congr {mem' : Mem} {a b : ℕ} (h : ∀ i < n, mem' (b + i) = mem (a + i)) :
    cString mem' b n = cString mem a n := by
  have hmap : (List.range n).map (fun i => mem' (b + i)) = (List.range n).map fun i => mem (a + i) := by
    apply List.map_congr_left
    intro i hi
    exact h i (List.mem_range.mp hi)
  rw [cString, cString, hmap]

/-- A string is found where its bytes are. -/
theorem cString_eq {mem : Mem} {a : ℕ} {l : List UInt8} (hl : ∀ j < l.length, mem (a + j) = l.getD j 0)
    (hzero : 0 ∉ l) (hend : mem (a + l.length) = 0) (hn : l.length < n) : cString mem a n = l := by
  obtain ⟨m, rfl⟩ := Nat.exists_eq_add_of_lt hn
  have hsplit : (List.range (l.length + m + 1)).map (fun i => mem (a + i)) =
      l ++ 0 :: (List.range m).map fun i => mem (a + (l.length + (1 + i))) := by
    rw [Nat.add_assoc, List.range_add, List.map_append, Nat.add_comm m 1, List.range_add, List.range_one]
    congr 1
    · apply List.ext_getElem
      · rw [List.length_map, List.length_range]
      · intro j h₁ h₂
        rw [List.getElem_map, List.getElem_range, hl j h₂, List.getD_eq_getElem _ _ h₂]
    · simp [hend, Function.comp_def]
  have hpos : ∀ x ∈ l, decide (x ≠ 0) = true := by
    intro x hx
    apply decide_eq_true
    rintro rfl
    exact hzero hx
  rw [cString, hsplit, List.takeWhile_append_of_pos hpos, List.takeWhile_cons_of_neg (by simp),
    List.append_nil]

/-- A block of a well-formed file is found, and nothing changes. -/
theorem sfsBmapLoad_mapped (h : FileOk fs sin.din) (hi : i < sin.din.blocks) :
    sfsBmapLoad fs sin i = .ok (.ok (blockAt fs sin.din i), fs, sin) := by
  have hmax : i < maxBlocks := hi.trans_le h.bound
  have hinuse := h.map.inUse i hmax (h.filled i hi)
  have hcreate : decide (i = sin.din.blocks) = false := decide_eq_false (Nat.ne_of_lt hi)
  rw [sfsBmapLoad, ensure_pos hi.le, ok_bind]
  simp only [hcreate]
  rw [sfsBmapGet_mapped h.ok h.map hmax (Or.inr rfl), ok_bind]
  dsimp only
  rw [assertInuse_spec h.ok hinuse, ok_bind]
  rfl

/-- An entry of a well-formed directory is read, and nothing changes. -/
theorem sfsDirentRead_spec (h : FileOk fs sin.din) (htype : sin.din.type = SFS_TYPE_DIR)
    (hi : i < sin.din.blocks) (entry : Mem) {ino : ℕ}
    (hentry : EntryAt (fs.disk (blockAt fs sin.din i)) ino name) :
    ∃ entry', sfsDirentRead fs sin i entry = .ok (0, fs, sin, entry') ∧ read32 entry' 0 = ino ∧
      cString entry' offsetName (SFS_MAX_FNAME_LEN + 1) = name := by
  have hinuse := h.map.inUse i (hi.trans_le h.bound) (h.filled i hi)
  refine ⟨Function.update (memcpy entry 0 (fs.disk (blockAt fs sin.din i)) sizeofDiskEntry)
    (offsetName + SFS_MAX_FNAME_LEN) 0, ?_, ?_, ?_⟩
  · rw [sfsDirentRead, ensure_pos ⟨htype, hi⟩, ok_bind, sfsBmapLoad_mapped h hi, ok_bind]
    dsimp only
    rw [assertInuse_spec h.ok hinuse, ok_bind, sfsRbuf_spec hinuse (by decide) (by decide), ok_bind]
    simp only [Nat.zero_add]
  · rw [← hentry.ino]
    refine read32_congr fun k hk hk' => ?_
    rw [Function.update_of_ne (by rw [offsetName, SFS_MAX_FNAME_LEN]; omega),
      memcpy_of_mem (Nat.zero_le _) (by rw [sizeofDiskEntry]; omega), Nat.sub_zero]
  · rw [← hentry.name]
    apply cString_congr
    intro k hk
    by_cases hlast : k = SFS_MAX_FNAME_LEN
    · rw [hlast, Function.update_self, Function.update_self]
    · have hne : offsetName + k ≠ offsetName + SFS_MAX_FNAME_LEN := by omega
      rw [Function.update_of_ne hne, Function.update_of_ne hne, memcpy_of_mem (Nat.zero_le _),
        Nat.sub_zero]
      rw [offsetName, sizeofDiskEntry]
      rw [SFS_MAX_FNAME_LEN] at hk
      omega

/-! ### The slots of a directory -/

/-- The directory has these slots, each with the inode number and the name in it; a number 0 is an
empty slot. -/
structure DirIs (fs : Fs) (sin : Inode) (slots : List (ℕ × List UInt8)) : Prop where
  file : FileOk fs sin.din
  type : sin.din.type = SFS_TYPE_DIR
  blocks : slots.length = sin.din.blocks
  entry : ∀ j (hj : j < slots.length),
    EntryAt (fs.disk (blockAt fs sin.din j)) slots[j].1 slots[j].2

/-- The entries that are not empty. -/
def live (slots : List (ℕ × List UInt8)) : List (ℕ × List UInt8) := slots.filter fun e => e.1 ≠ 0

variable {slots : List (ℕ × List UInt8)} {e : ℕ × List UInt8}

theorem live_cons_of_ne (h : e.1 ≠ 0) : live (e :: slots) = e :: live slots :=
  List.filter_cons_of_pos (by simpa using h)

theorem live_cons_of_eq (h : e.1 = 0) : live (e :: slots) = live slots :=
  List.filter_cons_of_neg (by simpa using h)

theorem live_eq_self (h : ∀ e ∈ slots, e.1 ≠ 0) : live slots = slots :=
  List.filter_eq_self.mpr fun e he => by simpa using h e he

/-- A slot of the directory is read. -/
theorem DirIs.read (h : DirIs fs sin slots) (hi : i < slots.length) (entry : Mem) :
    ∃ entry', sfsDirentRead fs sin i entry = .ok (0, fs, sin, entry') ∧
      read32 entry' 0 = slots[i].1 ∧
      cString entry' offsetName (SFS_MAX_FNAME_LEN + 1) = slots[i].2 :=
  sfsDirentRead_spec h.file h.type (h.blocks ▸ hi) entry (h.entry i hi)

/-! ### The search -/

/-- What the search for a name finds among the entries. -/
def Finds (entries : List (ℕ × List UInt8)) (name : List UInt8) (r : DirentSearch) : Prop :=
  match entries.find? fun e => e.2 = name with
  | some e => r.ret = 0 ∧ r.ino = some e.1
  | none => r.ret = -E_NOENT ∧ r.ino = none

theorem direntSearchLoop_spec (h : DirIs fs sin slots) (hi : i + n = slots.length) (entry : Mem)
    (emptySlot : ℕ) : ∃ r, direntSearchLoop name n i fs sin entry emptySlot = .ok (r, fs, sin) ∧
      Finds (live (slots.drop i)) name r := by
  induction n generalizing i entry emptySlot with
  | zero =>
    rw [List.drop_eq_nil_of_le (by omega)]
    exact ⟨_, rfl, rfl, rfl⟩
  | succ n ih =>
    obtain ⟨entry', hread, hino, hname⟩ := h.read (show i < slots.length by omega) entry
    rw [direntSearchLoop, hread, ok_bind, List.drop_eq_getElem_cons (show i < slots.length by omega)]
    dsimp only
    rw [if_neg (not_not.mpr rfl), hino, hname]
    by_cases hempty : slots[i].1 = 0
    · rw [if_pos hempty, live_cons_of_eq hempty]
      exact ih (by omega) entry' i
    rw [if_neg hempty, live_cons_of_ne hempty]
    by_cases hfound : name = slots[i].2
    · refine ⟨_, if_pos hfound, ?_⟩
      rw [Finds, List.find?_cons_of_pos (by rw [hfound]; exact decide_eq_true rfl)]
      exact ⟨rfl, rfl⟩
    · obtain ⟨r, hloop, hfinds⟩ := ih (i := i + 1) (by omega) entry' emptySlot
      rw [if_neg hfound]
      refine ⟨r, hloop, ?_⟩
      rw [Finds, List.find?_cons_of_neg (by simpa using Ne.symm hfound)]
      exact hfinds

/-- **The search** finds the first entry with the name. -/
theorem sfsDirentSearch_spec (h : DirIs fs sin slots) (hname : name.length ≤ SFS_MAX_FNAME_LEN)
    (entry : Mem) : ∃ r, sfsDirentSearch fs sin name (some entry) = .ok (r, fs, sin) ∧
      Finds (live slots) name r := by
  obtain ⟨r, hloop, hfinds⟩ := @direntSearchLoop_spec _ _ name 0 _ _ h
    (by rw [Nat.zero_add, h.blocks]) entry sin.din.blocks
  refine ⟨r, ?_, hfinds⟩
  rw [sfsDirentSearch, ensure_pos hname, ok_bind]
  exact hloop

theorem direntFindinoLoop_spec {ino : ℕ} (h : DirIs fs sin slots) (hi : i + n = slots.length)
    {e : ℕ × List UInt8} (hfind : (slots.drop i).find? (fun e => e.1 = ino) = some e) (entry : Mem) :
    ∃ entry', direntFindinoLoop ino n i fs sin entry = .ok (0, fs, sin, entry') ∧
      cString entry' offsetName (SFS_MAX_FNAME_LEN + 1) = e.2 := by
  induction n generalizing i entry with
  | zero =>
    rw [List.drop_eq_nil_of_le (by omega)] at hfind
    exact nomatch hfind
  | succ n ih =>
    have hlt : i < slots.length := by omega
    obtain ⟨entry', hread, hino, hname⟩ := h.read hlt entry
    rw [direntFindinoLoop, hread, ok_bind]
    dsimp only
    rw [if_neg (not_not.mpr rfl), hino]
    rw [List.drop_eq_getElem_cons hlt] at hfind
    by_cases hfound : slots[i].1 = ino
    · rw [List.find?_cons_of_pos (by simpa using hfound)] at hfind
      cases hfind
      exact ⟨entry', if_pos hfound, hname⟩
    · rw [List.find?_cons_of_neg (by simpa using hfound)] at hfind
      rw [if_neg hfound]
      exact ih (by omega) hfind entry'

/-- **The search for a number** finds the first slot with it. -/
theorem sfsDirentFindino_spec {ino : ℕ} (h : DirIs fs sin slots) {e : ℕ × List UInt8}
    (hfind : slots.find? (fun e => e.1 = ino) = some e) (entry : Mem) :
    ∃ entry', sfsDirentFindino fs sin ino entry = .ok (0, fs, sin, entry') ∧
      cString entry' offsetName (SFS_MAX_FNAME_LEN + 1) = e.2 :=
  direntFindinoLoop_spec h (by rw [Nat.zero_add, h.blocks]) hfind entry

/-! ### More blocks than an inode can map -/

theorem bmapOut_same (fs : Fs) (sin : Inode) (ino : ℕ) :
    (∃ p, bmapOut fs sin ino = .error p) ∨ bmapOut fs sin ino = .ok (.ok ino, fs, sin) := by
  rw [bmapOut]
  split
  case isTrue =>
    cases assertInuse fs ino with
    | error p => exact Or.inl ⟨p, rfl⟩
    | ok u => exact Or.inr rfl
  case isFalse => exact Or.inr rfl

/-- Without `create` nothing changes, even where the inode is damaged. -/
theorem sfsBmapGet_same (fs : Fs) (sin : Inode) (i : ℕ) :
    (∃ p, sfsBmapGet fs sin i false = .error p) ∨
      ∃ ino, sfsBmapGet fs sin i false = .ok (.ok ino, fs, sin) := by
  have hout : ∀ ino, (∃ p, bmapOut fs sin ino = .error p) ∨
      ∃ ino', bmapOut fs sin ino = .ok (.ok ino', fs, sin) := fun ino =>
    (bmapOut_same fs sin ino).imp_right fun h => ⟨ino, h⟩
  rw [sfsBmapGet]
  dsimp only
  by_cases hd : i < SFS_NDIRECT
  · rw [if_pos hd, if_neg fun hc => Bool.false_ne_true hc.2]
    exact hout _
  rw [if_neg hd]
  by_cases hj : i - SFS_NDIRECT < SFS_BLK_NENTRY
  · have hsub : (∃ p, sfsBmapGetSub fs sin.din.indirect (i - SFS_NDIRECT) false = .error p) ∨
        ∃ ino, sfsBmapGetSub fs sin.din.indirect (i - SFS_NDIRECT) false =
          .ok (.ok (sin.din.indirect, ino), fs) := by
      rw [sfsBmapGetSub, ensure_pos hj, ok_bind]
      split
      case isTrue =>
        cases sfsRbuf fs 4 sin.din.indirect ((i - SFS_NDIRECT) * 4) with
        | error p => exact Or.inl ⟨p, rfl⟩
        | ok bytes => exact Or.inr ⟨read32 bytes 0, if_pos (Or.inr rfl)⟩
      case isFalse => exact Or.inr ⟨0, if_pos rfl⟩
    rw [if_pos hj]
    rcases hsub with ⟨p, hp⟩ | ⟨ino, hino⟩
    · exact Or.inl ⟨p, by rw [hp, error_bind]⟩
    · rw [hino, ok_bind]
      dsimp only
      rw [if_neg (not_not.mpr rfl)]
      exact hout ino
  · rw [if_neg hj]
    exact Or.inl ⟨_, rfl⟩

theorem sfsDirentRead_same (fs : Fs) (hi : i < sin.din.blocks) (entry : Mem) :
    (∃ p, sfsDirentRead fs sin i entry = .error p) ∨
      ∃ entry', sfsDirentRead fs sin i entry = .ok (0, fs, sin, entry') := by
  have hcreate : decide (i = sin.din.blocks) = false := decide_eq_false (Nat.ne_of_lt hi)
  rw [sfsDirentRead]
  by_cases htype : sin.din.type = SFS_TYPE_DIR
  · rw [ensure_pos ⟨htype, hi⟩, ok_bind, sfsBmapLoad, ensure_pos hi.le, ok_bind]
    simp only [hcreate]
    rcases sfsBmapGet_same fs sin i with ⟨p, hp⟩ | ⟨ino, hino⟩
    · exact Or.inl ⟨p, by rw [hp, error_bind, error_bind]⟩
    · rw [hino, ok_bind]
      dsimp only
      cases hassert : assertInuse fs ino with
      | error p => exact Or.inl ⟨p, by rw [error_bind, error_bind]⟩
      | ok u =>
        rw [ok_bind, if_neg Bool.false_ne_true, ok_bind]
        dsimp only
        rw [hassert, ok_bind]
        cases sfsRbuf fs sizeofDiskEntry ino 0 with
        | error p => exact Or.inl ⟨p, rfl⟩
        | ok bytes => exact Or.inr ⟨_, rfl⟩
  · exact Or.inl ⟨.assertion, by rw [ensure_neg fun h => htype h.1, error_bind]⟩

/-- A search that does not find the name earlier panics at slot `maxBlocks`. -/
theorem direntSearchLoop_long (hi : i ≤ maxBlocks) (hn : maxBlocks < i + n)
    (hblocks : i + n = sin.din.blocks) (entry : Mem) (emptySlot : ℕ) {r : DirentSearch} {fs' : Fs}
    {sin' : Inode} (hloop : direntSearchLoop name n i fs sin entry emptySlot = .ok (r, fs', sin')) :
    r.ret = 0 := by
  induction n generalizing i entry emptySlot with
  | zero => omega
  | succ n ih =>
    rw [direntSearchLoop] at hloop
    rcases sfsDirentRead_same fs (show i < sin.din.blocks by omega) entry with
      ⟨p, hp⟩ | ⟨entry', hread⟩
    · rw [hp, error_bind] at hloop
      exact nomatch hloop
    · have hlt : i < maxBlocks := by
        refine Nat.lt_of_le_of_ne hi ?_
        rintro rfl
        rw [sfsDirentRead, sfsBmapLoad_out le_rfl (by omega), error_bind] at hread
        by_cases htype : sin.din.type = SFS_TYPE_DIR ∧ maxBlocks < sin.din.blocks
        · rw [ensure_pos htype, ok_bind] at hread
          exact nomatch hread
        · rw [ensure_neg htype, error_bind] at hread
          exact nomatch hread
      rw [hread, ok_bind] at hloop
      dsimp only at hloop
      rw [if_neg (not_not.mpr rfl)] at hloop
      split at hloop
      · exact ih hlt (by omega) (by omega) _ _ hloop
      · split at hloop
        · cases hloop
          rfl
        · exact ih hlt (by omega) (by omega) _ _ hloop

end Ucore.Sfs
