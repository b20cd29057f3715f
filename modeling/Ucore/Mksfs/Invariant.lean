import Ucore.Mksfs.Model

/-!
# What the blocks of an image are used for

Every block handed out has one use: it holds an inode, a block of a file, or block numbers of a file.
`Ok` says that the inodes and the blocks in memory follow these uses, so a change of one file leaves
the blocks of the others alone.  The blocks from `nextIno` on have no use yet; a call extends the
uses to the blocks that it takes.
-/

namespace Ucore.Mksfs

open Fallible Function Memory Sfs

variable {s s' : SfsFs} {g h c b k ino : ℕ}

/-- The use of a block: a table has numbers of blocks of the file, a double table numbers of
tables. -/
inductive Use
  | inode
  | data (g : ℕ)
  | table (g : ℕ)
  | dtable (g : ℕ)
  deriving DecidableEq

variable {use use' : ℕ → Use}

/-- The first block behind the freemap. -/
def SfsFs.first (s : SfsFs) : ℕ := SFS_BLKN_FREEMAP + sfsFreemapBlocks s.ninos

/-- The block has been handed out, and has the use `u`. -/
def SfsFs.Has (s : SfsFs) (use : ℕ → Use) (c : ℕ) (u : Use) : Prop :=
  s.first ≤ c ∧ c < s.nextIno ∧ use c = u

/-- The tables that the inode of `g` refers to are tables of `g`. -/
structure RefsOk (s : SfsFs) (use : ℕ → Use) (g : ℕ) (inode : Inode) : Prop where
  indirect : inode.indirect ≠ 0 → s.Has use inode.indirect (.table g)
  dbIndirect : inode.dbIndirect ≠ 0 → s.Has use inode.dbIndirect (.dtable g)
  entries : inode.dbIndirect ≠ 0 → ∀ j < SFS_BLK_NENTRY,
    read32 (s.cache inode.dbIndirect) (4 * j) ≠ 0 →
      s.Has use (read32 (s.cache inode.dbIndirect) (4 * j)) (.table g)

structure Ok (s : SfsFs) (use : ℕ → Use) : Prop where
  first_le : s.first ≤ s.nextIno
  le : s.nextIno ≤ s.ninos
  max : s.ninos ≤ SFS_MAX_NBLKS
  unused : s.unusedBlocks + s.nextIno = s.ninos
  inodes : ∀ i, ∀ g ∈ s.inodes i, i < HASH_LIST_SIZE ∧ (g = SFS_BLKN_ROOT ∨ s.Has use g .inode)
  blocks : ∀ i, ∀ c ∈ s.blocks i, i < HASH_LIST_SIZE ∧
    ∃ g, s.Has use c (.table g) ∨ s.Has use c (.dtable g)
  listed : ∀ c g, s.Has use c (.table g) ∨ s.Has use c (.dtable g) → ∃ i, c ∈ s.blocks i
  refs : ∀ g, s.IsInode g → RefsOk s use g (s.inode g).inode

theorem hash32_lt (val : ℕ) : hash32 val < HASH_LIST_SIZE := by
  rw [hash32, HASH_LIST_SIZE, HASH_SHIFT]
  omega

/-! ### A block is handed out -/

/-- The state after `sfs_alloc_ino`. -/
def SfsFs.alloc (s : SfsFs) : SfsFs :=
  { s with unusedBlocks := s.unusedBlocks - 1, nextIno := s.nextIno + 1 }

theorem sfsAllocIno_eq_ok {r : ℕ × SfsFs} :
    s.sfsAllocIno = .ok r ↔ s.nextIno < s.ninos ∧ r = (s.nextIno, s.alloc) := by
  rw [SfsFs.sfsAllocIno]
  by_cases hlt : s.nextIno < s.ninos
  · rw [if_pos hlt]
    constructor
    · intro heq
      cases heq
      exact ⟨hlt, rfl⟩
    · rintro ⟨-, rfl⟩
      rfl
  · rw [if_neg hlt]
    exact iff_of_false nofun fun hand => hlt hand.1

/-- What has a use keeps it. -/
theorem SfsFs.Has.extend {u : Use} (hhas : s.Has use c u) (hfirst : s'.first = s.first)
    (hnext : s.nextIno ≤ s'.nextIno) (huse : ∀ c < s.nextIno, use' c = use c) : s'.Has use' c u := by
  obtain ⟨h₁, h₂, h₃⟩ := hhas
  exact ⟨hfirst ▸ h₁, h₂.trans_le hnext, (huse c h₂).trans h₃⟩

theorem update_use (u : Use) : ∀ c < s.nextIno, update use s.nextIno u c = use c :=
  fun _ hc => update_of_ne (Nat.ne_of_lt hc) _ _

/-- The use given to the next block. -/
theorem has_alloc (hok : Ok s use) (u : Use) : s.alloc.Has (update use s.nextIno u) s.nextIno u :=
  ⟨hok.first_le, Nat.lt_succ_self _, update_self _ _ _⟩

/-- A block had its use before, or it is the new one. -/
theorem has_alloc_iff {u v : Use} (hok : Ok s use) :
    s.alloc.Has (update use s.nextIno u) c v ↔ s.Has use c v ∨ c = s.nextIno ∧ v = u := by
  constructor
  · rintro ⟨h₁, h₂, h₃⟩
    by_cases hc : c = s.nextIno
    · rw [hc, update_self] at h₃
      exact Or.inr ⟨hc, h₃.symm⟩
    · rw [update_of_ne hc] at h₃
      exact Or.inl ⟨h₁, Nat.lt_of_le_of_ne (Nat.le_of_lt_succ h₂) hc, h₃⟩
  · rintro (hhas | ⟨rfl, rfl⟩)
    · exact hhas.extend rfl (Nat.le_succ _) (update_use _)
    · exact has_alloc hok _

theorem RefsOk.extend {inode : Inode} (hrefs : RefsOk s use g inode) (hfirst : s'.first = s.first)
    (hnext : s.nextIno ≤ s'.nextIno) (huse : ∀ c < s.nextIno, use' c = use c)
    (hcache : ∀ c, s.Has use c (.dtable g) → s'.cache c = s.cache c) : RefsOk s' use' g inode := by
  refine ⟨?_, ?_, ?_⟩
  · intro hne
    exact (hrefs.indirect hne).extend hfirst hnext huse
  · intro hne
    exact (hrefs.dbIndirect hne).extend hfirst hnext huse
  · intro hne j hj hentry
    rw [hcache _ (hrefs.dbIndirect hne)] at hentry ⊢
    exact (hrefs.entries hne j hj hentry).extend hfirst hnext huse

/-- A block is handed out for data of a file. -/
theorem Ok.allocData (hok : Ok s use) (hlt : s.nextIno < s.ninos) (g : ℕ) :
    Ok s.alloc (update use s.nextIno (.data g)) := by
  have hfirst := hok.first_le
  have hunused := hok.unused
  refine ⟨Nat.le_succ_of_le hfirst, hlt, hok.max, ?_, ?_, ?_, ?_, ?_⟩
  · show s.unusedBlocks - 1 + (s.nextIno + 1) = s.ninos
    omega
  · intro i g' hg'
    obtain ⟨hi, hroot | hhas⟩ := hok.inodes i g' hg'
    · exact ⟨hi, Or.inl hroot⟩
    · exact ⟨hi, Or.inr ((has_alloc_iff hok).mpr (Or.inl hhas))⟩
  · intro i c hc
    obtain ⟨hi, g', hhas⟩ := hok.blocks i c hc
    refine ⟨hi, g', ?_⟩
    rw [has_alloc_iff hok, has_alloc_iff hok]
    exact hhas.imp Or.inl Or.inl
  · intro c g' hhas
    rw [has_alloc_iff hok, has_alloc_iff hok] at hhas
    refine hok.listed c g' ?_
    exact hhas.imp (fun h => h.resolve_right fun hand => nomatch hand.2)
      fun h => h.resolve_right fun hand => nomatch hand.2
  · intro g' hg'
    exact (hok.refs g' hg').extend rfl (Nat.le_succ _) (update_use _) fun _ _ => rfl

/-- The state after `alloc_cache_block(sfs, 0)`. -/
def SfsFs.allocTable (s : SfsFs) : SfsFs :=
  { s.alloc with
    cache := update s.cache s.nextIno fun _ => 0
    blocks := update s.blocks (hash32 0) (s.nextIno :: s.blocks (hash32 0)) }

theorem mem_allocTable {i : ℕ} : c ∈ s.allocTable.blocks i ↔
    c ∈ s.blocks i ∨ c = s.nextIno ∧ i = hash32 0 := by
  show c ∈ update s.blocks (hash32 0) _ i ↔ _
  by_cases hi : i = hash32 0
  · rw [hi, update_self, List.mem_cons, and_iff_left rfl, or_comm]
  · rw [update_of_ne hi]
    exact (or_iff_left fun hand => hi hand.2).symm

/-- A block is handed out for a table of a file. -/
theorem Ok.allocTable (hok : Ok s use) (hlt : s.nextIno < s.ninos) {u : Use}
    (hu : u = .table g ∨ u = .dtable g) : Ok s.allocTable (update use s.nextIno u) := by
  have hhas : ∀ {c v}, s.allocTable.Has (update use s.nextIno u) c v ↔
      s.Has use c v ∨ c = s.nextIno ∧ v = u := has_alloc_iff hok
  have hfirst := hok.first_le
  have hunused := hok.unused
  refine ⟨Nat.le_succ_of_le hfirst, hlt, hok.max, ?_, ?_, ?_, ?_, ?_⟩
  · show s.unusedBlocks - 1 + (s.nextIno + 1) = s.ninos
    omega
  · intro i g' hg'
    obtain ⟨hi, hroot | hold⟩ := hok.inodes i g' hg'
    · exact ⟨hi, Or.inl hroot⟩
    · exact ⟨hi, Or.inr (hhas.mpr (Or.inl hold))⟩
  · intro i c hc
    rcases mem_allocTable.mp hc with hc | ⟨hc, hi⟩
    · obtain ⟨hi, g', hold⟩ := hok.blocks i c hc
      refine ⟨hi, g', ?_⟩
      rw [hhas, hhas]
      exact hold.imp Or.inl Or.inl
    · refine ⟨hi ▸ hash32_lt 0, g, ?_⟩
      rw [hhas, hhas]
      exact hu.imp (fun heq => Or.inr ⟨hc, heq.symm⟩) fun heq => Or.inr ⟨hc, heq.symm⟩
  · intro c g' hnew
    by_cases hc : c = s.nextIno
    · exact ⟨hash32 0, mem_allocTable.mpr (Or.inr ⟨hc, rfl⟩)⟩
    · rw [hhas, hhas] at hnew
      obtain ⟨i, hi⟩ := hok.listed c g' (hnew.imp (fun h => h.resolve_right fun hand => hc hand.1)
        fun h => h.resolve_right fun hand => hc hand.1)
      exact ⟨i, mem_allocTable.mpr (Or.inl hi)⟩
  · intro g' hg'
    refine (hok.refs g' hg').extend rfl (Nat.le_succ _) (update_use _) ?_
    intro c hc
    exact update_of_ne (Nat.ne_of_lt hc.2.1) _ _

/-! ### Other changes -/

/-- The image and the static entry do not matter. -/
theorem Ok.setImg (hok : Ok s use) (img : ℕ → Mem) (entry : Mem) :
    Ok { s with img := img, entry := entry } use :=
  ⟨hok.first_le, hok.le, hok.max, hok.unused, hok.inodes, hok.blocks, hok.listed, fun g hg =>
    ⟨(hok.refs g hg).indirect, (hok.refs g hg).dbIndirect, (hok.refs g hg).entries⟩⟩

/-- The inode of a file changes. -/
theorem Ok.setInode (hok : Ok s use) {file : CacheInode} (hrefs : RefsOk s use g file.inode) :
    Ok (s.setInode g file) use := by
  refine ⟨hok.first_le, hok.le, hok.max, hok.unused, hok.inodes, hok.blocks, hok.listed, ?_⟩
  intro h hh
  show RefsOk _ use h (update s.inode g file h).inode
  by_cases hgh : h = g
  · rw [hgh, update_self]
    exact hrefs.extend rfl le_rfl (fun _ _ => rfl) fun _ _ => rfl
  · rw [update_of_ne hgh]
    exact (hok.refs h hh).extend rfl le_rfl (fun _ _ => rfl) fun _ _ => rfl

theorem Ok.lt (hok : Ok s use) (hb : b < s.nextIno) : b < 2 ^ 32 := by
  have hle := hok.le
  have hmax := hok.max
  rw [SFS_MAX_NBLKS] at hmax
  omega

theorem read32_setEntry_self (hino : ino < 2 ^ 32) :
    read32 ((s.setEntry c k ino).cache c) (4 * k) = ino := by
  show read32 (update s.cache c _ c) (4 * k) = ino
  rw [update_self, read32_memcpy_self hino]

theorem read32_setEntry_of_ne {j : ℕ} (hj : j ≠ k) :
    read32 ((s.setEntry c k ino).cache c) (4 * j) = read32 (s.cache c) (4 * j) := by
  show read32 (update s.cache c _ c) (4 * j) = _
  rw [update_self, read32_memcpy_of_apart (by omega)]

theorem setEntry_cache_of_ne (hb : b ≠ c) : (s.setEntry c k ino).cache b = s.cache b :=
  update_of_ne hb _ _

/-- A number is stored in a table. -/
theorem RefsOk.setTable {inode : Inode} (hrefs : RefsOk s use h inode) (hc : s.Has use c (.table g))
    (k ino : ℕ) : RefsOk (s.setEntry c k ino) use h inode := by
  refine hrefs.extend rfl le_rfl (fun _ _ => rfl) ?_
  intro d hd
  apply setEntry_cache_of_ne
  rintro rfl
  exact nomatch hd.2.2.symm.trans hc.2.2

/-- The number of a table is stored in a double table. -/
theorem RefsOk.setDtable {inode : Inode} (hrefs : RefsOk s use h inode)
    (hc : s.Has use c (.dtable g)) (hb : s.Has use b (.table g)) (hlt : b < 2 ^ 32) (k : ℕ) :
    RefsOk (s.setEntry c k b) use h inode := by
  refine ⟨hrefs.indirect, hrefs.dbIndirect, ?_⟩
  intro hne j hj
  by_cases hd : inode.dbIndirect = c
  · have hgh : h = g := by
      have huse := (hrefs.dbIndirect hne).2.2
      rw [hd, hc.2.2] at huse
      cases huse
      rfl
    rw [hd]
    by_cases hjk : j = k
    · rw [hjk, read32_setEntry_self hlt, hgh]
      exact fun _ => hb
    · rw [read32_setEntry_of_ne hjk]
      intro hentry
      rw [← hd] at hentry ⊢
      exact hrefs.entries hne j hj hentry
  · rw [setEntry_cache_of_ne hd]
    exact hrefs.entries hne j hj

/-- Only the tables of the inodes matter. -/
theorem Ok.setEntry (hok : Ok s use) {c k ino : ℕ}
    (hrefs : ∀ g, s.IsInode g → RefsOk (s.setEntry c k ino) use g (s.inode g).inode) :
    Ok (s.setEntry c k ino) use :=
  ⟨hok.first_le, hok.le, hok.max, hok.unused, hok.inodes, hok.blocks, hok.listed, hrefs⟩

/-! ### A table is looked up -/

/-- `update_cache` gives the table with the number, or a new one when there is none. -/
theorem updateCache_eq_ok {cb : Option ℕ} {e : ℕ} (hcache : s.updateCache cb ino = .ok (c, e, s')) :
    e = c ∧ (ino ≠ 0 ∧ c = ino ∧ s' = s ∨
      ino = 0 ∧ c = s.nextIno ∧ s.nextIno < s.ninos ∧ s' = s.allocTable) := by
  rw [SfsFs.updateCache] at hcache
  by_cases hino : ino = 0
  · rw [if_pos hino, SfsFs.allocCacheBlock, if_neg (not_not.mpr rfl)] at hcache
    obtain ⟨r, hr, heq⟩ := bind_eq_ok.mp hcache
    obtain ⟨r', hr', heq'⟩ := bind_eq_ok.mp hr
    obtain ⟨hlt, rfl⟩ := sfsAllocIno_eq_ok.mp hr'
    cases heq'
    cases heq
    exact ⟨rfl, Or.inr ⟨hino, rfl, hlt, rfl⟩⟩
  · rw [if_neg hino] at hcache
    by_cases hcb : cb = some ino
    · rw [if_pos hcb] at hcache
      cases hcache
      exact ⟨rfl, Or.inl ⟨hino, rfl, rfl⟩⟩
    · rw [if_neg hcb] at hcache
      cases hsearch : s.searchCacheBlock ino with
      | none =>
        rw [hsearch] at hcache
        exact nomatch hcache
      | some d =>
        rw [hsearch] at hcache
        obtain ⟨u, hu, heq⟩ := bind_eq_ok.mp hcache
        have hd := require_eq_ok.mp hu
        cases heq
        exact ⟨hd.symm, Or.inl ⟨hino, hd, rfl⟩⟩

/-- A table of the file, perhaps a new one, which is empty. -/
structure Table (s : SfsFs) (use : ℕ → Use) (ino c : ℕ) (u : Use) (s' : SfsFs) (use' : ℕ → Use) :
    Prop where
  ok : Ok s' use'
  has : s'.Has use' c u
  next : s.nextIno ≤ s'.nextIno
  use : ∀ b < s.nextIno, use' b = use b
  cache : ∀ b < s.nextIno, s'.cache b = s.cache b
  same : s'.inode = s.inode ∧ s'.inodes = s.inodes ∧ s'.img = s.img ∧ s'.ninos = s.ninos
  found : ino ≠ 0 → c = ino
  empty : ino = 0 → c = s.nextIno ∧ ∀ j, read32 (s'.cache c) (4 * j) = 0

theorem updateCache_ok (hok : Ok s use) {u : Use} (hu : u = .table g ∨ u = .dtable g)
    (hino : ino ≠ 0 → s.Has use ino u) {cb : Option ℕ} {e : ℕ}
    (hcache : s.updateCache cb ino = .ok (c, e, s')) :
    e = c ∧ ∃ use', Table s use ino c u s' use' := by
  obtain ⟨he, ⟨hne, hc, hs⟩ | ⟨hzero, hc, hlt, hs⟩⟩ := updateCache_eq_ok hcache
  · rw [hs, hc]
    exact ⟨he.trans hc, use, hok, hino hne, le_rfl, fun _ _ => rfl, fun _ _ => rfl,
      ⟨rfl, rfl, rfl, rfl⟩, fun _ => rfl, fun h0 => absurd h0 hne⟩
  · rw [hs, hc]
    refine ⟨he.trans hc, _, hok.allocTable hlt hu, has_alloc hok u, Nat.le_succ _, update_use u, ?_,
      ⟨rfl, rfl, rfl, rfl⟩, fun hne => absurd hzero hne, fun _ => ⟨rfl, ?_⟩⟩
    · intro b hb
      exact update_of_ne (Nat.ne_of_lt hb) _ _
    · intro j
      show read32 (update s.cache s.nextIno _ s.nextIno) (4 * j) = 0
      rw [update_self]
      rfl

theorem Table.refs {u : Use} {inode : Inode} (ht : Table s use ino c u s' use')
    (hrefs : RefsOk s use g inode) : RefsOk s' use' g inode := by
  refine hrefs.extend ?_ ht.next ht.use fun d hd => ht.cache d hd.2.1
  rw [SfsFs.first, SfsFs.first, ht.same.2.2.2]

/-- The new number of the double table. -/
theorem Table.refs_dbIndirect {inode : Inode}
    (ht : Table s use inode.dbIndirect c (.dtable g) s' use') (hrefs : RefsOk s use g inode) : RefsOk s' use' g { inode with dbIndirect := c } := by
  have hrefs' := ht.refs hrefs
  refine ⟨hrefs'.indirect, fun _ => ht.has, ?_⟩
  intro _ j hj
  show read32 (s'.cache c) (4 * j) ≠ 0 → s'.Has use' (read32 (s'.cache c) (4 * j)) (.table g)
  by_cases hdb : inode.dbIndirect = 0
  · intro hne
    exact absurd ((ht.empty hdb).2 j) hne
  · rw [ht.found hdb]
    exact hrefs'.entries hdb j hj

end Ucore.Mksfs
