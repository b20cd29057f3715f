import Ucore.Mksfs.Calls

/-!
# When the calls succeed

A file of up to `maxBlocks + 1` blocks can be made as long as the image has room: every block takes at
most two tables.  `RootDir` is what the next entries of the root directory need.
-/

namespace Ucore.Mksfs

open Bytes Fallible Function Memory Sfs Transition

variable {s s' : SfsFs} {use : ℕ → Use} {f g real n : ℕ} {chunks : List (List UInt8)}

/-! ### Blocks -/

/-- The tables of a file that has no table in the double table. -/
structure Shape (file : CacheInode) : Prop where
  short : file.nblks ≤ SFS_NDIRECT → file.inode.indirect = 0
  long : SFS_NDIRECT < file.nblks → file.nblks ≤ maxBlocks → file.l1 = some file.inode.indirect
  dbIndirect : file.nblks ≤ maxBlocks → file.inode.dbIndirect = 0

/-- `update_cache` succeeds. -/
theorem updateCache_total (cb : Option ℕ) (ino : ℕ) (hfree : s.nextIno < s.ninos)
    (hcb : ino ≠ 0 → cb = some ino) : ∃ c s', s.updateCache cb ino = .ok (c, c, s') ∧
      s'.nextIno ≤ s.nextIno + 1 ∧ s'.ninos = s.ninos ∧ s'.inode = s.inode ∧
      (ino = 0 → ∀ j, read32 (s'.cache c) (4 * j) = 0) := by
  by_cases hino : ino = 0
  · have halloc : s.updateCache cb ino = .ok (s.nextIno, s.nextIno, s.allocTable) := by
      rw [SfsFs.updateCache, if_pos hino, SfsFs.allocCacheBlock, if_neg (not_not.mpr rfl),
        sfsAllocIno_eq_ok.mpr ⟨hfree, rfl⟩]
      rfl
    refine ⟨_, _, halloc, le_rfl, rfl, rfl, ?_⟩
    intro _ j
    show read32 (update s.cache s.nextIno _ s.nextIno) (4 * j) = 0
    rw [update_self]
    rfl
  · refine ⟨ino, s, ?_, Nat.le_succ _, rfl, rfl, fun hzero => absurd hzero hino⟩
    rw [SfsFs.updateCache, if_neg hino, if_pos (hcb hino)]

theorem appendLevel_total {file : CacheInode} (ino : ℕ) (hfree : s.nextIno + 2 ≤ s.ninos)
    (hshape : Shape file) (hn : file.nblks ≤ maxBlocks) :
    ∃ file' s', s.appendLevel file file.nblks ino = .ok (file', s') ∧
      s'.nextIno ≤ s.nextIno + 2 ∧ s'.ninos = s.ninos ∧ s'.inode = s.inode ∧
      file'.inode.type = file.inode.type ∧
      (file.nblks < SFS_NDIRECT → file'.inode.indirect = 0) ∧
      (SFS_NDIRECT ≤ file.nblks → file.nblks < maxBlocks →
        file'.l1 = some file'.inode.indirect) ∧
      (file.nblks < maxBlocks → file'.inode.dbIndirect = 0) := by
  by_cases h₀ : file.nblks < SFS_L0_NBLKS
  · refine ⟨_, s, if_pos h₀, Nat.le_add_right _ _, rfl, rfl, rfl, ?_, ?_, ?_⟩
    · exact fun hlt => hshape.short hlt.le
    · exact fun hge => absurd h₀ (Nat.not_lt.mpr hge)
    · exact fun _ => hshape.dbIndirect hn
  by_cases h₁ : file.nblks < SFS_L1_NBLKS
  · have hcb : file.inode.indirect ≠ 0 → file.l1 = some file.inode.indirect := by
      intro hne
      refine hshape.long ?_ hn
      by_contra hle
      exact hne (hshape.short (Nat.not_lt.mp hle))
    obtain ⟨c, s', hcache, hnext, hninos, hinode, -⟩ := updateCache_total (s := s) _ _
      (by omega) hcb
    have heq : s.appendLevel file file.nblks ino =
        .ok ({ file with inode := { file.inode with indirect := c }, l1 := some c },
          s'.setEntry c (file.nblks - SFS_L0_NBLKS) ino) := by
      rw [SfsFs.appendLevel, if_neg h₀, if_pos h₁, hcache]
      rfl
    refine ⟨_, _, heq, hnext.trans (Nat.le_succ _), hninos, hinode, rfl, ?_, ?_, ?_⟩
    · exact fun hlt => absurd hlt h₀
    · exact fun _ _ => rfl
    · exact fun _ => hshape.dbIndirect hn
  · have hn' : file.nblks = maxBlocks := by
      rw [SFS_L1_NBLKS, SFS_L0_NBLKS] at h₁
      rw [maxBlocks] at hn ⊢
      omega
    have h₂ : file.nblks < SFS_L2_NBLKS := by
      rw [hn']
      decide
    have hindex : (file.nblks - SFS_L1_NBLKS) / SFS_BLK_NENTRY = 0 := by
      rw [hn']
      decide
    have hdb := hshape.dbIndirect hn
    obtain ⟨c, s', hcache, hnext, hninos, hinode, hzero⟩ := updateCache_total (s := s) file.l2
      file.inode.dbIndirect (by omega) (fun hne => absurd hdb hne)
    have hentry : read32 (s'.cache c) (4 * ((file.nblks - SFS_L1_NBLKS) / SFS_BLK_NENTRY)) = 0 :=
      hzero hdb _
    obtain ⟨c', s'', hcache', hnext', hninos', hinode', -⟩ := updateCache_total (s := s')
      file.l1 0 (by omega) (fun hne => absurd rfl hne)
    have heq : s.appendLevel file file.nblks ino =
        .ok ({ file with inode := { file.inode with dbIndirect := c }, l1 := some c', l2 := some c },
          (s''.setEntry c ((file.nblks - SFS_L1_NBLKS) / SFS_BLK_NENTRY) c').setEntry c'
            ((file.nblks - SFS_L1_NBLKS) % SFS_BLK_NENTRY) ino) := by
      rw [SfsFs.appendLevel, if_neg h₀, if_neg h₁, if_pos h₂, hcache]
      dsimp only [bind_ok]
      rw [hentry, hcache']
      rfl
    refine ⟨_, _, heq, ?_, hninos'.trans hninos, hinode'.trans hinode, rfl, ?_, ?_, ?_⟩
    · show s''.nextIno ≤ _
      omega
    · exact fun hlt => absurd hlt h₀
    · exact fun _ hlt => absurd hn' (Nat.ne_of_lt hlt)
    · exact fun hlt => absurd hn' (Nat.ne_of_lt hlt)

/-- **A block is added** as long as the file has not more than `maxBlocks` blocks and the image has
room. -/
theorem addBlock_total (data : Mem) {len : ℕ} (hlen : len ≤ SFS_BLKSIZE)
    (hfree : s.nextIno + 3 ≤ s.ninos) (hshape : Shape (s.inode g))
    (hn : (s.inode g).nblks ≤ maxBlocks) : ∃ s', s.addBlock g data len = .ok s' ∧
      s'.nextIno ≤ s.nextIno + 3 ∧ s'.ninos = s.ninos ∧ Shape (s'.inode g) ∧
      (s'.inode g).nblks = (s.inode g).nblks + 1 := by
  let s₁ : SfsFs := { s.alloc with
    img := update s.img s.nextIno fun i => if i < len then data i else 0 }
  have hlt : s.nextIno < s.ninos := by omega
  have hwrite : s.alloc.writeBlock data len s.nextIno = .ok s₁ :=
    bind_eq_ok.mpr ⟨(), require_pos ⟨hlen, hlt⟩, rfl⟩
  have hfree' : s₁.nextIno + 2 ≤ s₁.ninos := by
    show s.nextIno + 1 + 2 ≤ s.ninos
    omega
  obtain ⟨file, s₂, hlevel, hnext, hninos, hinode, -, hshort, hlong, hdb⟩ :=
    appendLevel_total (s := s₁) s.nextIno hfree' hshape hn
  have hmany : ¬(s₁.inode g).nblks ≥ SFS_LN_NBLKS := by
    have hmax : maxBlocks < SFS_LN_NBLKS := by decide
    exact Nat.not_le.mpr (lt_of_le_of_lt hn hmax)
  have heq : s.addBlock g data len = .ok (s₂.setInode g { file with
      nblks := (s.inode g).nblks + 1
      inode := { file.inode with
        size := (file.inode.size + len) % 2 ^ 32
        blocks := (file.inode.blocks + 1) % 2 ^ 32 } }) := by
    rw [SfsFs.addBlock, sfsAllocIno_eq_ok.mpr ⟨hlt, rfl⟩, bind_ok]
    dsimp only
    rw [hwrite, bind_ok, SfsFs.appendBlock, require_pos hlen, bind_ok]
    dsimp only
    rw [require_pos hmany, bind_ok]
    exact bind_eq_ok.mpr ⟨_, hlevel, rfl⟩
  refine ⟨_, heq, ?_, hninos, ?_, ?_⟩
  · have hnext' : s₂.nextIno ≤ s.nextIno + 1 + 2 := hnext
    exact hnext'
  · show Shape (update s₂.inode g _ g)
    rw [update_self]
    exact ⟨hshort, fun hgt hle => hlong (Nat.le_of_lt_succ hgt) hle, hdb⟩
  · show (update s₂.inode g _ g).nblks = _
    rw [update_self]

/-- The loop of `open_file` on full chunks. -/
theorem openFileLoop_total (hfull : ∀ chunk ∈ chunks, chunk.length = SFS_BLKSIZE)
    (hfree : s.nextIno + 3 * chunks.length ≤ s.ninos) (hshape : Shape (s.inode g))
    (hn : (s.inode g).nblks + chunks.length ≤ maxBlocks + 1) :
    ∃ s', SfsFs.openFileLoop g s SFS_BLKSIZE chunks = .ok s' ∧
      s'.nextIno ≤ s.nextIno + 3 * chunks.length ∧ s'.ninos = s.ninos := by
  induction chunks generalizing s with
  | nil => exact ⟨s, rfl, le_rfl, rfl⟩
  | cons chunk chunks ih =>
    have hlen := hfull chunk List.mem_cons_self
    rw [List.length_cons] at hfree hn
    obtain ⟨s₁, hadd, hnext₁, hninos₁, hshape₁, hn₁⟩ :=
      addBlock_total (bytesOf chunk) hlen.le (by omega) hshape (by omega)
    obtain ⟨s', hloop, hnext', hninos'⟩ := ih (fun c hc => hfull c (List.mem_cons_of_mem _ hc))
      (s := s₁) (by omega) hshape₁ (by omega)
    refine ⟨s', ?_, ?_, hninos'.trans hninos₁⟩
    · rw [SfsFs.openFileLoop, require_pos rfl, bind_ok, hadd, bind_ok, hlen]
      exact hloop
    · rw [List.length_cons]
      omega

theorem Shape.nlinks {ci : CacheInode} {links : ℕ} (h : Shape ci) :
    Shape { ci with inode := { ci.inode with nlinks := links } } := ⟨h.short, h.long, h.dbIndirect⟩

/-- **An entry is added** under the same conditions. -/
theorem addEntry_total {name : List UInt8} (hdir : (s.inode g).inode.type = SFS_TYPE_DIR)
    (hname : name.length ≤ SFS_MAX_FNAME_LEN) (hfree : s.nextIno + 3 ≤ s.ninos)
    (hshape : Shape (s.inode g)) (hn : (s.inode g).nblks ≤ maxBlocks) :
    ∃ s', s.addEntry g f name = .ok s' ∧ s'.nextIno ≤ s.nextIno + 3 ∧ s'.ninos = s.ninos ∧
      Shape (s'.inode g) := by
  obtain ⟨s₁, hadd, hnext, hninos, hshape₁, -⟩ := addBlock_total
    (s := { s with entry := SfsFs.fillEntry s.entry f name }) (SfsFs.fillEntry s.entry f name)
    (show SfsFs.sizeofName ≤ SFS_BLKSIZE by decide) hfree hshape hn
  refine ⟨_, bind_eq_ok.mpr ⟨(), require_pos ⟨hdir, hname⟩, bind_eq_ok.mpr ⟨s₁, hadd, rfl⟩⟩, hnext,
    hninos, ?_⟩
  show Shape (update s₁.inode f _ g)
  by_cases hgf : g = f
  · rw [hgf, update_self]
    exact (hgf ▸ hshape₁).nlinks
  · rw [update_of_ne hgf]
    exact hshape₁

/-- A new file of up to `maxBlocks + 1` full blocks. -/
theorem newFile_total (real : ℕ) (hfull : ∀ chunk ∈ chunks, chunk.length = SFS_BLKSIZE)
    (hfree : s.nextIno + 1 + 3 * chunks.length ≤ s.ninos) (hn : chunks.length ≤ maxBlocks + 1) :
    ∃ f s', s.newFile real chunks = .ok (f, s') ∧
      s'.nextIno ≤ s.nextIno + 1 + 3 * chunks.length ∧ s'.ninos = s.ninos := by
  have hlt : s.nextIno < s.ninos := by omega
  let ci : CacheInode := ⟨⟨0, SFS_TYPE_FILE, 0, 0, fun _ => 0, 0, 0⟩, 0, none, none⟩
  let s₁ : SfsFs := { s.alloc.setInode s.nextIno ci with
    inodes := update s.inodes (hash64 real) (s.nextIno :: s.inodes (hash64 real)) }
  have halloc : s.allocCacheInode real 0 SFS_TYPE_FILE = .ok (s.nextIno, s₁) := by
    rw [SfsFs.allocCacheInode, if_neg (not_not.mpr rfl), sfsAllocIno_eq_ok.mpr ⟨hlt, rfl⟩]
    rfl
  have hci : s₁.inode s.nextIno = ci := update_self _ _ _
  obtain ⟨s', hloop, hnext, hninos⟩ := openFileLoop_total (s := s₁) (g := s.nextIno) hfull hfree
    (by rw [hci]; exact ⟨fun _ => rfl, fun h => absurd h (by decide), fun _ => rfl⟩)
    (by rw [hci]; exact (Nat.zero_add _).le.trans hn)
  exact ⟨s.nextIno, s', bind_eq_ok.mpr ⟨_, halloc, bind_eq_ok.mpr ⟨s', hloop, rfl⟩⟩, hnext, hninos⟩

/-- What the next calls need to know about the root directory. -/
structure RootDir (s : SfsFs) (use : ℕ → Use) (n : ℕ) : Prop where
  ok : Ok s use
  isInode : s.IsInode SFS_BLKN_ROOT
  shape : Shape (s.inode SFS_BLKN_ROOT)
  file : ∃ ws, ws.length = n ∧ FileIs s use SFS_BLKN_ROOT SFS_TYPE_DIR ws

/-- An entry for the root directory. -/
theorem RootDir.addEntry (name : List UInt8) (h : RootDir s use n) (hf : s.IsInode f)
    (hname : name.length ≤ SFS_MAX_FNAME_LEN) (hzero : 0 ∉ name) (hfree : s.nextIno + 3 ≤ s.ninos)
    (hn : n ≤ maxBlocks) : ∃ s' use', Runs s (.addEntry SFS_BLKN_ROOT f name) s' ∧
      RootDir s' use' (n + 1) ∧ s'.nextIno ≤ s.nextIno + 3 ∧ s'.ninos = s.ninos := by
  obtain ⟨ws, hws, hfile⟩ := h.file
  obtain ⟨s', hadd, hnext, hninos, hshape⟩ := addEntry_total (f := f) hfile.type hname hfree h.shape
    (by rw [hfile.nblks, hws]; exact hn)
  have hrun : Runs s (.addEntry SFS_BLKN_ROOT f name) s' := ⟨⟨h.isInode, hf, hzero⟩, hadd⟩
  obtain ⟨use', hcall⟩ := hrun.callOk h.ok
  refine ⟨s', use', hrun, ⟨hcall.ok, hcall.isInode _ h.isInode, hshape, _, ?_,
    (hcall.follows _ h.isInode).entries ws hfile⟩, hnext, hninos⟩
  rw [Call.entry, if_pos rfl, List.length_append, List.length_singleton, hws]

/-- A new file changes nothing in the root directory. -/
theorem RootDir.newFile (h : RootDir s use n) (hnew : s.newFile real chunks = .ok (f, s')) :
    ∃ use', s'.IsInode f ∧ RootDir s' use' n := by
  obtain ⟨ws, hws, hfile⟩ := h.file
  obtain ⟨hf, hi, -, use', hext, -⟩ := newFile_ok h.ok hnew
  have hkeeps := hext.keeps SFS_BLKN_ROOT (hf ▸ Nat.ne_of_lt (h.ok.lt_nextIno h.isInode))
  obtain ⟨links, hlinks⟩ := hkeeps.inode
  refine ⟨use', hi, hext.ok, hext.isInode _ h.isInode, ?_, ws, hws,
    hfile.keep (h.ok.refs _ h.isInode) hkeeps⟩
  rw [hlinks]
  exact h.shape.nlinks

/-- The root directory of a new image. -/
theorem rootDir_createSfs {nblks : ℕ} {img : ℕ → Mem} (hcreate : SfsFs.createSfs nblks img = .ok s)
    (hshape : Shape (s.inode SFS_BLKN_ROOT)) : ∃ use, RootDir s use 0 := by
  obtain ⟨-, hinodes, use, hok, hfile⟩ := createSfs_ok hcreate
  exact ⟨use, hok, (hinodes SFS_BLKN_ROOT).mpr rfl, hshape, [], rfl, hfile⟩

end Ucore.Mksfs
