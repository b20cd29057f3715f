import Mathlib.Data.List.GetD
import Ucore.Mksfs.Invariant
import Ucore.Sfs.BlockMap

/-!
# Adding a block to a file

`FileIs` says that a file has the given blocks, in the state of `mksfs` and in the image.  As long as
there are no more than the inode and one table have numbers for, `Mapped` says where the numbers are.
A call that adds a block to one file adds it at the end (`addBlock_ok`), and keeps every other file
(`Keeps`).
-/

namespace Ucore.Mksfs

open Fallible Function Memory Sfs

variable {s s' s'' : SfsFs} {use use' use'' : ℕ → Use} {f g c b ino len : ℕ} {bs : List ℕ}
  {ws : List (List UInt8)} {w : List UInt8}

/-! ### The numbers of the blocks -/

/-- The inode and its table have the numbers of the blocks `bs`. -/
structure Mapped (s : SfsFs) (use : ℕ → Use) (g : ℕ) (inode : Inode) (bs : List ℕ) : Prop where
  data : ∀ b ∈ bs, s.Has use b (.data g)
  nodup : bs.Nodup
  direct : ∀ k < SFS_NDIRECT, inode.direct k = bs.getD k 0
  indirect : inode.indirect = 0 ↔ bs.length ≤ SFS_NDIRECT
  entries : inode.indirect ≠ 0 → ∀ j < SFS_BLK_NENTRY,
    read32 (s.cache inode.indirect) (4 * j) = bs.getD (SFS_NDIRECT + j) 0

theorem getD_append_singleton (bs : List ℕ) (b k : ℕ) :
    (bs ++ [b]).getD k 0 = if k = bs.length then b else bs.getD k 0 := by
  rw [List.getD_eq_getElem?_getD, List.getD_eq_getElem?_getD]
  split
  case isTrue hk =>
    rw [hk, List.getElem?_append_right le_rfl, Nat.sub_self]
    rfl
  case isFalse hk =>
    rcases Nat.lt_or_gt_of_ne hk with hlt | hgt
    · rw [List.getElem?_append_left hlt]
    · rw [List.getElem?_eq_none (by rw [List.length_append, List.length_singleton]; omega),
        List.getElem?_eq_none (by omega)]

theorem nodup_append_singleton (h : bs.Nodup) (hb : b ∉ bs) : (bs ++ [b]).Nodup := by
  rw [List.nodup_append]
  refine ⟨h, List.nodup_singleton b, ?_⟩
  intro a ha d hd hab
  rw [List.mem_singleton] at hd
  exact hb (hd ▸ hab ▸ ha)

/-- What level of the file a block belongs to does not change the rest of the state. -/
structure Levels (s : SfsFs) (use : ℕ → Use) (g : ℕ) (file : CacheInode) (s' : SfsFs)
    (use' : ℕ → Use) (file' : CacheInode) : Prop where
  ok : Ok s' use'
  refs : RefsOk s' use' g file'.inode
  size : file'.inode.size = file.inode.size
  type : file'.inode.type = file.inode.type
  blocks : file'.inode.blocks = file.inode.blocks
  same : s'.inode = s.inode ∧ s'.inodes = s.inodes ∧ s'.img = s.img ∧ s'.ninos = s.ninos
  next : s.nextIno ≤ s'.nextIno
  uses : ∀ b < s.nextIno, use' b = use b
  cache : ∀ b < s.nextIno, use b ≠ .table g → use b ≠ .dtable g → s'.cache b = s.cache b

theorem Levels.first {file file' : CacheInode} (h : Levels s use g file s' use' file') :
    s'.first = s.first := by
  rw [SfsFs.first, SfsFs.first, h.same.2.2.2]

/-- The number is stored in the inode. -/
theorem appendLevel_direct (ino : ℕ) (hok : Ok s use) {file : CacheInode} (hrefs : RefsOk s use g file.inode)
    {n : ℕ} (hn : n < SFS_NDIRECT) : ∃ file', s.appendLevel file n ino = .ok (file', s) ∧
      Levels s use g file s use file' ∧ ∀ bs, Mapped s use g file.inode bs → bs.length = n →
        s.Has use ino (.data g) → ino ∉ bs → Mapped s use g file'.inode (bs ++ [ino]) := by
  refine ⟨_, if_pos hn, ⟨hok, ⟨hrefs.indirect, hrefs.dbIndirect, hrefs.entries⟩, rfl, rfl, rfl,
    ⟨rfl, rfl, rfl, rfl⟩, le_rfl, fun _ _ => rfl, fun _ _ _ _ => rfl⟩, ?_⟩
  intro bs hm hlength hino hnot
  have hzero : file.inode.indirect = 0 := hm.indirect.mpr (by omega)
  refine ⟨?_, nodup_append_singleton hm.nodup hnot, ?_, ?_, fun hne => absurd hzero hne⟩
  · intro b hb
    rcases List.mem_append.mp hb with hb | hb
    · exact hm.data b hb
    · exact List.mem_singleton.mp hb ▸ hino
  · intro k hk
    show update file.inode.direct n ino k = _
    rw [getD_append_singleton, hlength]
    by_cases hkn : k = n
    · rw [hkn, update_self, if_pos rfl]
    · rw [update_of_ne hkn, if_neg hkn]
      exact hm.direct k hk
  · rw [List.length_append, List.length_singleton]
    exact iff_of_true hzero (by omega)

/-- The number is stored in the table. -/
theorem appendLevel_indirect (hok : Ok s use) {file file' : CacheInode}
    (hrefs : RefsOk s use g file.inode) (hino : s.Has use ino (.data g)) {n : ℕ}
    (hn : ¬n < SFS_L0_NBLKS) (hn' : n < SFS_L1_NBLKS)
    (hlevel : s.appendLevel file n ino = .ok (file', s')) : ∃ use', Levels s use g file s' use' file' ∧
      ∀ bs, Mapped s use g file.inode bs → bs.length = n → ino ∉ bs →
        Mapped s' use' g file'.inode (bs ++ [ino]) := by
  rw [SfsFs.appendLevel, if_neg hn, if_pos hn'] at hlevel
  obtain ⟨⟨c, e, s₁⟩, hcache, heq⟩ := bind_eq_ok.mp hlevel
  obtain ⟨hec, use', ht⟩ := updateCache_ok hok (Or.inl rfl) hrefs.indirect hcache
  dsimp only at heq
  cases heq
  have hrefs' := ht.refs hrefs
  have hne : e ≠ 0 := by
    have hfirst := ht.has.1
    rw [hec]
    rw [SfsFs.first, SFS_BLKN_FREEMAP] at hfirst
    omega
  have hcache' : ∀ b < s.nextIno, use b ≠ .table g →
      (s₁.setEntry c (n - SFS_L0_NBLKS) ino).cache b = s.cache b := by
    intro b hb huse
    rw [setEntry_cache_of_ne, ht.cache b hb]
    rintro rfl
    exact huse ((ht.use b hb).symm.trans ht.has.2.2)
  have hhas : ∀ {b u}, s.Has use b u → (s₁.setEntry c (n - SFS_L0_NBLKS) ino).Has use' b u := by
    intro b u hb
    refine hb.extend ?_ ht.next ht.use
    show s₁.first = s.first
    rw [SfsFs.first, SfsFs.first, ht.same.2.2.2]
  have hrefs'' : RefsOk s₁ use' g { file.inode with indirect := e } :=
    ⟨fun _ => hec ▸ ht.has, hrefs'.dbIndirect, hrefs'.entries⟩
  refine ⟨use', ⟨?_, hrefs''.setTable ht.has _ _, rfl, rfl, rfl, ht.same, ht.next, ht.use,
    fun b hb huse _ => hcache' b hb huse⟩, ?_⟩
  · exact ht.ok.setEntry fun h hh => (ht.ok.refs h hh).setTable ht.has _ _
  · intro bs hm hlength hnot
    have hlow : SFS_NDIRECT ≤ n := Nat.le_of_not_lt hn
    refine ⟨?_, nodup_append_singleton hm.nodup hnot, ?_, ?_, ?_⟩
    · intro b hb
      rcases List.mem_append.mp hb with hb | hb
      · exact hhas (hm.data b hb)
      · exact hhas (List.mem_singleton.mp hb ▸ hino)
    · intro k hk
      rw [getD_append_singleton, if_neg (by omega)]
      exact hm.direct k hk
    · rw [List.length_append, List.length_singleton]
      exact iff_of_false hne (by omega)
    · intro _ j hj
      show read32 ((s₁.setEntry c (n - SFS_L0_NBLKS) ino).cache e) (4 * j) = _
      rw [hec, getD_append_singleton, hlength]
      by_cases hjn : j = n - SFS_L0_NBLKS
      · have hkn : SFS_NDIRECT + j = n := by
          rw [hjn, SFS_L0_NBLKS]
          omega
        rw [hjn, read32_setEntry_self (hok.lt hino.2.1), ← hjn, if_pos hkn]
      · have hkn : SFS_NDIRECT + j ≠ n := by
          intro heq
          apply hjn
          rw [SFS_L0_NBLKS]
          omega
        rw [read32_setEntry_of_ne hjn, if_neg hkn]
        by_cases hzero : file.inode.indirect = 0
        · -- the first number of a new table
          have hshort := hm.indirect.mp hzero
          rw [(ht.empty hzero).2 j, List.getD_eq_default _ _ (by omega)]
        · rw [ht.found hzero, ht.cache _ (hrefs.indirect hzero).2.1]
          exact hm.entries hzero j hj

/-- The number is stored in a table of the double table. -/
theorem appendLevel_dbIndirect (hok : Ok s use) {file file' : CacheInode}
    (hrefs : RefsOk s use g file.inode) {n : ℕ} (hn : ¬n < SFS_L0_NBLKS) (hn' : ¬n < SFS_L1_NBLKS)
    (hn'' : n < SFS_L2_NBLKS) (hlevel : s.appendLevel file n ino = .ok (file', s')) :
    ∃ use', Levels s use g file s' use' file' := by
  rw [SfsFs.appendLevel, if_neg hn, if_neg hn', if_pos hn''] at hlevel
  obtain ⟨⟨c, e, s₁⟩, hcache₁, heq⟩ := bind_eq_ok.mp hlevel
  obtain ⟨⟨d, e', s₂⟩, hcache₂, heq'⟩ := bind_eq_ok.mp heq
  dsimp only at hcache₂ heq'
  cases heq'
  obtain ⟨hec, use₁, ht₁⟩ := updateCache_ok hok (Or.inr rfl) hrefs.dbIndirect hcache₁
  have hrefs₁ := ht₁.refs_dbIndirect hrefs
  have hne : c ≠ 0 := by
    have hfirst := ht₁.has.1
    rw [SfsFs.first, SFS_BLKN_FREEMAP] at hfirst
    omega
  have hindex : (n - SFS_L1_NBLKS) / SFS_BLK_NENTRY < SFS_BLK_NENTRY := by
    rw [Nat.div_lt_iff_lt_mul (by decide)]
    rw [SFS_L2_NBLKS] at hn''
    omega
  obtain ⟨hed, use₂, ht₂⟩ := updateCache_ok ht₁.ok (Or.inl rfl) (hrefs₁.entries hne _ hindex) hcache₂
  have hc : s₂.Has use₂ c (.dtable g) := by
    refine ht₁.has.extend ?_ ht₂.next ht₂.use
    rw [SfsFs.first, SfsFs.first, ht₂.same.2.2.2]
  have hd : s₂.Has use₂ e' (.table g) := hed ▸ ht₂.has
  have hset : ∀ {h inode}, RefsOk s₂ use₂ h inode →
      RefsOk ((s₂.setEntry c ((n - SFS_L1_NBLKS) / SFS_BLK_NENTRY) e').setEntry d
        ((n - SFS_L1_NBLKS) % SFS_BLK_NENTRY) ino) use₂ h inode := by
    intro h inode hr
    have hr' := hr.setDtable hc hd (ht₂.ok.lt hd.2.1) ((n - SFS_L1_NBLKS) / SFS_BLK_NENTRY)
    exact hr'.setTable ht₂.has _ _
  obtain ⟨hi₁, hl₁, him₁, hni₁⟩ := ht₁.same
  obtain ⟨hi₂, hl₂, him₂, hni₂⟩ := ht₂.same
  refine ⟨use₂, ?_, ?_, rfl, rfl, rfl, ?_, ht₁.next.trans ht₂.next, ?_, ?_⟩
  · have hok₂ := ht₂.ok.setEntry fun h hh =>
      (ht₂.ok.refs h hh).setDtable hc hd (ht₂.ok.lt hd.2.1) ((n - SFS_L1_NBLKS) / SFS_BLK_NENTRY)
    exact hok₂.setEntry fun h hh => hset (ht₂.ok.refs h hh)
  · apply hset
    rw [hec]
    exact ht₂.refs hrefs₁
  · exact ⟨hi₂.trans hi₁, hl₂.trans hl₁, him₂.trans him₁, hni₂.trans hni₁⟩
  · intro b hb
    exact (ht₂.use b (hb.trans_le ht₁.next)).trans (ht₁.use b hb)
  · intro b hb htable hdtable
    have huse₁ := ht₁.use b hb
    have huse₂ := ht₂.use b (hb.trans_le ht₁.next)
    have hbc : b ≠ c := by
      rintro rfl
      exact hdtable (huse₁.symm.trans ht₁.has.2.2)
    have hbd : b ≠ d := by
      rintro rfl
      exact htable (huse₁.symm.trans (huse₂.symm.trans ht₂.has.2.2))
    rw [setEntry_cache_of_ne hbd, setEntry_cache_of_ne hbc, ht₂.cache b (hb.trans_le ht₁.next),
      ht₁.cache b hb]

/-! ### Files -/

/-- The file `g` has the blocks `ws`; they are in the image, as long as the inode and one table have
numbers for them. -/
structure FileIs (s : SfsFs) (use : ℕ → Use) (g type : ℕ) (ws : List (List UInt8)) : Prop where
  type : (s.inode g).inode.type = type
  nblks : (s.inode g).nblks = ws.length
  blocks : (s.inode g).inode.blocks = ws.length
  size : (s.inode g).inode.size = ws.flatten.length
  bound : ws.length ≤ SFS_LN_NBLKS
  chunk : ∀ w ∈ ws, w.length ≤ SFS_BLKSIZE
  mapped : ws.length ≤ maxBlocks → ∃ bs, bs.length = ws.length ∧
    Mapped s use g (s.inode g).inode bs ∧
    ∀ i < ws.length, ∀ k < SFS_BLKSIZE, s.img (bs.getD i 0) k = (ws.getD i []).getD k 0

/-- The file `f` is not touched, except that its links may be counted. -/
structure Keeps (f : ℕ) (s : SfsFs) (use : ℕ → Use) (s' : SfsFs) (use' : ℕ → Use) : Prop where
  ninos : s'.ninos = s.ninos
  next : s.nextIno ≤ s'.nextIno
  uses : ∀ c < s.nextIno, use' c = use c
  cache : ∀ c, s.Has use c (.table f) → s'.cache c = s.cache c
  img : ∀ c, s.Has use c (.data f) → s'.img c = s.img c
  inode : ∃ n, s'.inode f =
    { s.inode f with inode := { (s.inode f).inode with nlinks := n } }

theorem Keeps.refl (f : ℕ) (s : SfsFs) (use : ℕ → Use) : Keeps f s use s use :=
  ⟨rfl, le_rfl, fun _ _ => rfl, fun _ _ => rfl, fun _ _ => rfl, _, rfl⟩

theorem Keeps.first (h : Keeps f s use s' use') : s'.first = s.first := by
  rw [SfsFs.first, SfsFs.first, h.ninos]

theorem Keeps.has (h : Keeps f s use s' use') {u : Use} (hc : s.Has use c u) : s'.Has use' c u :=
  hc.extend h.first h.next h.uses

theorem Keeps.trans (h₁ : Keeps f s use s' use') (h₂ : Keeps f s' use' s'' use'') :
    Keeps f s use s'' use'' := by
  obtain ⟨n₁, hn₁⟩ := h₁.inode
  obtain ⟨n₂, hn₂⟩ := h₂.inode
  refine ⟨h₂.ninos.trans h₁.ninos, h₁.next.trans h₂.next, ?_, ?_, ?_, n₂, ?_⟩
  · intro c hc
    exact (h₂.uses c (hc.trans_le h₁.next)).trans (h₁.uses c hc)
  · intro c hc
    exact (h₂.cache c (h₁.has hc)).trans (h₁.cache c hc)
  · intro c hc
    exact (h₂.img c (h₁.has hc)).trans (h₁.img c hc)
  · rw [hn₂, hn₁]

theorem Mapped.congr {inode inode' : Inode} (hm : Mapped s use g inode bs)
    (hhas : ∀ c, s.Has use c (.data g) → s'.Has use' c (.data g))
    (hdirect : inode'.direct = inode.direct) (hindirect : inode'.indirect = inode.indirect)
    (hcache : inode.indirect ≠ 0 → s'.cache inode.indirect = s.cache inode.indirect) :
    Mapped s' use' g inode' bs := by
  refine ⟨fun b hb => hhas b (hm.data b hb), hm.nodup, ?_, ?_, ?_⟩
  · rw [hdirect]
    exact hm.direct
  · rw [hindirect]
    exact hm.indirect
  · rw [hindirect]
    intro hne
    rw [hcache hne]
    exact hm.entries hne

/-- A file that is not touched stays what it is. -/
theorem FileIs.keep {type : ℕ} (hf : FileIs s use f type ws) (hrefs : RefsOk s use f (s.inode f).inode)
    (hk : Keeps f s use s' use') : FileIs s' use' f type ws := by
  obtain ⟨n, hn⟩ := hk.inode
  refine ⟨?_, ?_, ?_, ?_, hf.bound, hf.chunk, ?_⟩
  · rw [hn]
    exact hf.type
  · rw [hn]
    exact hf.nblks
  · rw [hn]
    exact hf.blocks
  · rw [hn]
    exact hf.size
  · intro hmax
    obtain ⟨bs, hlength, hm, himg⟩ := hf.mapped hmax
    refine ⟨bs, hlength, ?_, ?_⟩
    · apply hm.congr fun c hc => hk.has hc
      · rw [hn]
      · rw [hn]
      · exact fun hne => hk.cache _ (hrefs.indirect hne)
    · intro i hi k hkk
      have hb : bs.getD i 0 ∈ bs := by
        rw [List.getD_eq_getElem _ _ (by omega)]
        exact List.getElem_mem _
      rw [hk.img _ (hm.data _ hb)]
      exact himg i hi k hkk

theorem length_flatten_le (h : ∀ w ∈ ws, w.length ≤ SFS_BLKSIZE) :
    ws.flatten.length ≤ ws.length * SFS_BLKSIZE := by
  induction ws with
  | nil => exact Nat.zero_le _
  | cons w ws ih =>
    have hw := h w List.mem_cons_self
    have hrest := ih fun v hv => h v (List.mem_cons_of_mem _ hv)
    rw [List.flatten_cons, List.length_append, List.length_cons, Nat.succ_mul]
    omega

/-! ### The calls that add a block -/

theorem appendLevel_ok (hok : Ok s use) {file file' : CacheInode} (hrefs : RefsOk s use g file.inode)
    (hino : s.Has use ino (.data g)) {n : ℕ} (hn : n < SFS_LN_NBLKS)
    (hlevel : s.appendLevel file n ino = .ok (file', s')) :
    ∃ use', Levels s use g file s' use' file' ∧ ∀ bs, Mapped s use g file.inode bs → bs.length = n →
      n < maxBlocks → ino ∉ bs → Mapped s' use' g file'.inode (bs ++ [ino]) := by
  by_cases h₀ : n < SFS_L0_NBLKS
  · obtain ⟨file'', heq, hlevels, hmapped⟩ := appendLevel_direct ino hok hrefs h₀
    rw [heq] at hlevel
    cases hlevel
    exact ⟨use, hlevels, fun bs hm hlength _ => hmapped bs hm hlength hino⟩
  by_cases h₁ : n < SFS_L1_NBLKS
  · obtain ⟨use', hlevels, hmapped⟩ := appendLevel_indirect hok hrefs hino h₀ h₁ hlevel
    exact ⟨use', hlevels, fun bs hm hlength _ => hmapped bs hm hlength⟩
  · have h₂ : n < SFS_L2_NBLKS := hn.trans_le (by decide)
    obtain ⟨use', hlevels⟩ := appendLevel_dbIndirect hok hrefs h₀ h₁ h₂ hlevel
    refine ⟨use', hlevels, ?_⟩
    intro bs _ _ hmax
    rw [SFS_L1_NBLKS, SFS_L0_NBLKS] at h₁
    rw [maxBlocks] at hmax
    omega

/-- What a call does to the other files. -/
structure Extends (g : ℕ) (s : SfsFs) (use : ℕ → Use) (s' : SfsFs) (use' : ℕ → Use) : Prop where
  ok : Ok s' use'
  keeps : ∀ f, f ≠ g → Keeps f s use s' use'
  isInode : ∀ h, s.IsInode h → s'.IsInode h
  inodes : ∀ h, s'.IsInode h → s.IsInode h ∨ h = g

/-- **A new block** is added at the end of the file. -/
theorem addBlock_ok (hok : Ok s use) (hg : s.IsInode g) {data : Mem}
    (hadd : s.addBlock g data len = .ok s') : ∃ use', Extends g s use s' use' ∧
      ∀ type ws w, FileIs s use g type ws → w.length = len → (∀ k < len, data k = w.getD k 0) →
        FileIs s' use' g type (ws ++ [w]) := by
  obtain ⟨r, hr, hadd⟩ := bind_eq_ok.mp hadd
  obtain ⟨hlt, rfl⟩ := sfsAllocIno_eq_ok.mp hr
  obtain ⟨s₁, hwrite, happend⟩ := bind_eq_ok.mp hadd
  obtain ⟨u, hu, heq⟩ := bind_eq_ok.mp hwrite
  obtain ⟨hlen, -⟩ := require_eq_ok.mp hu
  obtain ⟨u', hu', happend⟩ := bind_eq_ok.mp happend
  obtain ⟨u'', hu'', happend⟩ := bind_eq_ok.mp happend
  obtain ⟨⟨file, s₂⟩, hlevel, heq'⟩ := bind_eq_ok.mp happend
  have hnblks := Nat.lt_of_not_le (require_eq_ok.mp hu'')
  dsimp only at hlevel heq'
  have hok₁ : Ok s₁ (update use s.nextIno (.data g)) := by
    cases heq
    exact (hok.allocData hlt g).setImg _ _
  have hsame : s₁.inode = s.inode ∧ s₁.inodes = s.inodes ∧ s₁.cache = s.cache ∧
      s₁.ninos = s.ninos ∧ s₁.nextIno = s.nextIno + 1 ∧
      s₁.img = update s.img s.nextIno fun i => if i < len then data i else 0 := by
    cases heq
    exact ⟨rfl, rfl, rfl, rfl, rfl, rfl⟩
  obtain ⟨hinode, hinodes, hcache, hninos, hnext, himg⟩ := hsame
  have hino : s₁.Has (update use s.nextIno (.data g)) s.nextIno (.data g) := by
    refine ⟨?_, hnext ▸ Nat.lt_succ_self _, update_self _ _ _⟩
    rw [SfsFs.first, hninos]
    exact hok.first_le
  have hextend : ∀ {c v}, s.Has use c v → s₁.Has (update use s.nextIno (.data g)) c v := by
    intro c v hc
    refine hc.extend ?_ (by omega) (update_use _)
    rw [SfsFs.first, SfsFs.first, hninos]
  have hg₁ : s₁.IsInode g := by
    obtain ⟨i, hi⟩ := hg
    exact ⟨i, hinodes ▸ hi⟩
  obtain ⟨use', hl, hmapped⟩ := appendLevel_ok hok₁ (hok₁.refs g hg₁) hino hnblks hlevel
  obtain ⟨hi₂, hl₂, him₂, hn₂⟩ := hl.same
  have huses : ∀ c < s.nextIno, use' c = use c := by
    intro c hc
    exact (hl.uses c (by omega)).trans (update_use _ c hc)
  cases heq'
  refine ⟨use', ⟨?_, ?_, ?_, ?_⟩, ?_⟩
  · exact hl.ok.setInode ⟨hl.refs.indirect, hl.refs.dbIndirect, hl.refs.entries⟩
  · intro f hf
    have hnext' := hl.next
    refine ⟨hn₂.trans hninos, ?_, huses, ?_, ?_, (s.inode f).inode.nlinks, ?_⟩
    · show s.nextIno ≤ s₂.nextIno
      omega
    · intro c hc
      have huse : update use s.nextIno (.data g) c = .table f := (hextend hc).2.2
      show s₂.cache c = s.cache c
      rw [hl.cache c (hextend hc).2.1, hcache]
      · rw [huse]
        rintro ⟨⟩
        exact hf rfl
      · rw [huse]
        intro heq
        cases heq
    · intro c hc
      show s₂.img c = s.img c
      rw [him₂, himg, update_of_ne (Nat.ne_of_lt hc.2.1)]
    · show update s₂.inode g _ f = _
      rw [update_of_ne hf, hi₂, hinode]
  · rintro h ⟨i, hi⟩
    refine ⟨i, ?_⟩
    show h ∈ s₂.inodes i
    rw [hl₂, hinodes]
    exact hi
  · rintro h ⟨i, hi⟩
    have hmem : h ∈ s₂.inodes i := hi
    rw [hl₂, hinodes] at hmem
    exact Or.inl ⟨i, hmem⟩
  · intro type ws w hf hw hdata
    have hnew : (s₂.setInode g { file with
        nblks := (s₁.inode g).nblks + 1
        inode := { file.inode with
          size := (file.inode.size + len) % 2 ^ 32
          blocks := (file.inode.blocks + 1) % 2 ^ 32 } }).inode g = { file with
        nblks := (s₁.inode g).nblks + 1
        inode := { file.inode with
          size := (file.inode.size + len) % 2 ^ 32
          blocks := (file.inode.blocks + 1) % 2 ^ 32 } } := update_self _ _ _
    have hlength : (ws ++ [w]).length = ws.length + 1 := by
      rw [List.length_append, List.length_singleton]
    rw [hinode, hf.nblks] at hnblks
    have hchunk : ∀ v ∈ ws ++ [w], v.length ≤ SFS_BLKSIZE := by
      intro v hv
      rcases List.mem_append.mp hv with hv | hv
      · exact hf.chunk v hv
      · rw [List.mem_singleton.mp hv, hw]
        exact hlen
    have htotal := length_flatten_le hf.chunk
    have hLN : SFS_LN_NBLKS = 32768 := rfl
    refine ⟨?_, ?_, ?_, ?_, ?_, hchunk, ?_⟩
    · rw [hnew]
      exact hl.type.trans (hinode ▸ hf.type)
    · rw [hnew, hlength]
      show (s₁.inode g).nblks + 1 = _
      rw [hinode, hf.nblks]
    · rw [hnew, hlength]
      show (file.inode.blocks + 1) % 2 ^ 32 = _
      rw [hl.blocks, hinode, hf.blocks, Nat.mod_eq_of_lt (by omega)]
    · rw [hnew, List.flatten_append, List.length_append, List.flatten_singleton, hw]
      show (file.inode.size + len) % 2 ^ 32 = _
      rw [hl.size, hinode, hf.size, Nat.mod_eq_of_lt]
      rw [SFS_BLKSIZE] at htotal hlen
      omega
    · omega
    · intro hmax
      rw [hlength] at hmax
      obtain ⟨bs, hbs, hm, hbytes⟩ := hf.mapped (by omega)
      have hm₁ : Mapped s₁ (update use s.nextIno (.data g)) g (s₁.inode g).inode bs := by
        rw [hinode]
        exact hm.congr (fun c hc => hextend hc) rfl rfl fun _ => by rw [hcache]
      have hnot : s.nextIno ∉ bs := fun hmem => lt_irrefl _ (hm.data _ hmem).2.1
      have hm₂ := hmapped bs hm₁ (by rw [hinode, hf.nblks, hbs]) (by rw [hinode, hf.nblks]; omega) hnot
      refine ⟨bs ++ [s.nextIno], ?_, ?_, ?_⟩
      · rw [hlength, List.length_append, List.length_singleton, hbs]
      · rw [hnew]
        exact hm₂.congr (fun c hc => hc) rfl rfl fun _ => rfl
      · intro i hi k hk
        show s₂.img _ k = _
        rw [him₂, himg, getD_append_singleton, hbs]
        by_cases hlast : i = ws.length
        · rw [if_pos hlast, update_self, hlast, List.getD_append_right _ _ _ _ le_rfl, Nat.sub_self]
          show _ = w.getD k 0
          split
          case isTrue hkl => exact hdata k hkl
          case isFalse hkl => rw [List.getD_eq_default _ _ (by omega)]
        · have hib : i < bs.length := by omega
          have hmem : bs.getD i 0 ∈ bs := by
            rw [List.getD_eq_getElem _ _ hib]
            exact List.getElem_mem _
          rw [if_neg hlast, update_of_ne (Nat.ne_of_lt (hm.data _ hmem).2.1),
            List.getD_append _ _ _ _ (by omega)]
          exact hbytes i (by omega) k hk

end Ucore.Mksfs
