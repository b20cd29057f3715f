import Mathlib.Algebra.Order.Interval.Finset.SuccPred
import Mathlib.Data.Nat.SuccPred
import Mathlib.Order.Interval.Finset.Nat
import Ucore.Sfs.Changes

/-!
# Blocks added at the end of a file, and taken from it

`demand fs din n` is the number of free blocks that it takes to map a file up to block `n`.
`Reaches` describes the state after some of these blocks have been loaded, with the exact account of
the free blocks, so that the outcome of a loop of `sfs_bmap_load_nolock` is decided by the demand
alone: `growLoop_spec`.  `shrinkLoop_spec` says that truncation always goes through.
-/

namespace Ucore.Sfs

variable {fs fs' fs₀ fs₁ : Fs} {sin sin' sin₀ sin₁ : Inode} {din : DiskInode} {b i k m n : ℕ}

/-- A file whose blocks are mapped, in use and distinct. -/
structure FileOk (fs : Fs) (din : DiskInode) : Prop where
  ok : FsOk fs
  map : MapOk fs din
  filled : ∀ i < din.blocks, blockAt fs din i ≠ 0
  bound : din.blocks ≤ maxBlocks

/-- The free blocks that it takes to map the file up to block `n`. -/
def demand (fs : Fs) (din : DiskInode) (n : ℕ) : ℕ :=
  ((Finset.Ico din.blocks n).filter fun i => blockAt fs din i = 0).card +
    if din.indirect = 0 ∧ SFS_NDIRECT < n ∧ din.blocks < n then 1 else 0

/-- There is no free block for the next block of the file. -/
def NoBlock (fs : Fs) (din : DiskInode) : Prop :=
  din.blocks < maxBlocks ∧ blockAt fs din din.blocks = 0 ∧
    fs.freemap.count < cost din din.blocks

theorem demand_of_le (h : n ≤ din.blocks) : demand fs din n = 0 := by
  rw [demand, Finset.Ico_eq_empty_of_le h, if_neg fun hc => absurd hc.2.2 (Nat.not_lt.mpr h)]
  rfl

/-- The demand of a block is not more than the demand of the file. -/
theorem cost_le_demand (h0 : blockAt fs din din.blocks = 0) (hn : din.blocks < n) :
    cost din din.blocks ≤ demand fs din n := by
  have hpos : 1 ≤ ((Finset.Ico din.blocks n).filter fun i => blockAt fs din i = 0).card :=
    Finset.card_pos.mpr ⟨din.blocks, Finset.mem_filter.mpr
      ⟨Finset.mem_Ico.mpr ⟨Nat.le_refl _, hn⟩, h0⟩⟩
  rw [cost, demand]
  by_cases hc : SFS_NDIRECT ≤ din.blocks ∧ din.indirect = 0
  · rw [if_pos hc, if_pos ⟨hc.2, by omega, hn⟩]
    omega
  · rw [if_neg hc]
    omega

/-- A loaded block leaves as many blocks to find as its cost says. -/
theorem Loads.demand (hl : Loads fs sin fs' sin' i b) (hle : i ≤ sin.din.blocks) (hi : i < n)
    (hn : n ≤ maxBlocks) (hfill : i < sin.din.blocks → blockAt fs sin.din i ≠ 0) :
    fs'.freemap.count + demand fs sin.din n = fs.freemap.count + demand fs' sin'.din n := by
  have hcount := hl.count
  have hblocks := hl.nblocks
  rcases Nat.lt_or_eq_of_le hle with hlt | heq
  · have hsame : sin'.din.blocks = sin.din.blocks := by omega
    have hfilter : ((Finset.Ico sin'.din.blocks n).filter fun k => blockAt fs' sin'.din k = 0) =
        ((Finset.Ico sin.din.blocks n).filter fun k => blockAt fs sin.din k = 0) := by
      rw [hsame]
      refine Finset.filter_congr fun k hk => ?_
      obtain ⟨h₁, h₂⟩ := Finset.mem_Ico.mp hk
      rw [hl.old k (by omega) (by omega)]
    have hflag : (sin'.din.indirect = 0 ∧ SFS_NDIRECT < n ∧ sin'.din.blocks < n) ↔
        (sin.din.indirect = 0 ∧ SFS_NDIRECT < n ∧ sin.din.blocks < n) := by
      rw [hsame, hl.indirect]
      refine ⟨fun h => ⟨h.1.1, h.2⟩, fun h => ⟨⟨h.1, ?_⟩, h.2⟩⟩
      by_contra hge
      refine hfill hlt ?_
      rw [blockAt, if_neg hge, entryAt, if_pos h.1]
    rw [if_neg (hfill hlt)] at hcount
    rw [Sfs.demand, Sfs.demand, hfilter, if_congr hflag rfl rfl]
    omega
  · subst heq
    have hsucc : sin'.din.blocks = sin.din.blocks + 1 := by omega
    have hcut : Finset.Ico sin.din.blocks n =
        insert sin.din.blocks (Finset.Ico (sin.din.blocks + 1) n) :=
      (Finset.insert_Ico_add_one_left_eq_Ico hi).symm
    have hfilter : ((Finset.Ico sin'.din.blocks n).filter fun k => blockAt fs' sin'.din k = 0) =
        ((Finset.Ico (sin.din.blocks + 1) n).filter fun k => blockAt fs sin.din k = 0) := by
      rw [hsucc]
      refine Finset.filter_congr fun k hk => ?_
      obtain ⟨h₁, h₂⟩ := Finset.mem_Ico.mp hk
      rw [hl.old k (by omega) (by omega)]
    have hcard : ((Finset.Ico sin.din.blocks n).filter fun k => blockAt fs sin.din k = 0).card =
        (if blockAt fs sin.din sin.din.blocks = 0 then 1 else 0) +
        ((Finset.Ico (sin.din.blocks + 1) n).filter fun k => blockAt fs sin.din k = 0).card := by
      rw [hcut, Finset.filter_insert]
      by_cases h0 : blockAt fs sin.din sin.din.blocks = 0
      · rw [if_pos h0, if_pos h0, Finset.card_insert_of_notMem, Nat.add_comm]
        simp
      · rw [if_neg h0, if_neg h0, Nat.zero_add]
    have hind := hl.indirect
    rw [Sfs.demand, Sfs.demand, hfilter, hcard, hsucc]
    by_cases hc : SFS_NDIRECT ≤ sin.din.blocks ∧ sin.din.indirect = 0
    · have h0 : blockAt fs sin.din sin.din.blocks = 0 := by
        rw [blockAt, if_neg (Nat.not_lt.mpr hc.1), entryAt, if_pos hc.2]
      have hnew : ¬ sin'.din.indirect = 0 := fun h => by
        have := (hind.mp h).2
        omega
      rw [if_pos h0, cost, if_pos hc] at hcount
      rw [if_pos h0, if_pos ⟨hc.2, by omega, hi⟩, if_neg fun h => hnew h.1]
      omega
    · have hflag : (sin'.din.indirect = 0 ∧ SFS_NDIRECT < n ∧ sin.din.blocks + 1 < n) ↔
          (sin.din.indirect = 0 ∧ SFS_NDIRECT < n ∧ sin.din.blocks < n) := by
        rw [hind]
        refine ⟨fun h => ⟨h.1.1, h.2.1, hi⟩, fun h => ?_⟩
        have hlow : sin.din.blocks < SFS_NDIRECT := by
          by_contra hge
          exact hc ⟨Nat.not_lt.mp hge, h.1⟩
        exact ⟨⟨h.1, hlow⟩, h.2.1, by omega⟩
      rw [cost, if_neg hc] at hcount
      rw [if_congr hflag rfl rfl]
      omega

/-- The state after blocks of the file have been loaded, up to block `m`; `n` bounds the blocks that
will be loaded. -/
structure Reaches (fs₀ : Fs) (sin₀ : Inode) (fs : Fs) (sin : Inode) (m n : ℕ) : Prop where
  priv : Private fs₀ sin₀.din fs sin.din
  filled : ∀ i < sin.din.blocks, blockAt fs sin.din i ≠ 0
  bound : sin.din.blocks ≤ maxBlocks
  nblocks : sin.din.blocks = max sin₀.din.blocks m
  rest : ∀ k < maxBlocks, sin.din.blocks ≤ k → blockAt fs sin.din k = blockAt fs₀ sin₀.din k
  budget : fs.freemap.count + demand fs₀ sin₀.din n = fs₀.freemap.count + demand fs sin.din n
  ino : sin.ino = sin₀.ino
  size : sin.din.size = sin₀.din.size
  type : sin.din.type = sin₀.din.type

theorem Reaches.refl (h : FileOk fs sin.din) (n : ℕ) : Reaches fs sin fs sin 0 n :=
  ⟨Private.refl h.ok h.map, h.filled, h.bound, (Nat.max_eq_left (Nat.zero_le _)).symm,
    fun _ _ _ => rfl, rfl, rfl, rfl, rfl⟩

theorem Reaches.fileOk (h : Reaches fs₀ sin₀ fs sin m n) : FileOk fs sin.din :=
  ⟨h.priv.ok, h.priv.map, h.filled, h.bound⟩

/-- The next block. -/
theorem Reaches.load (h : Reaches fs₀ sin₀ fs sin m n) (hl : Loads fs sin fs' sin' i b)
    (hle : i ≤ sin.din.blocks) (hi : i < n) (hn : n ≤ maxBlocks) :
    Reaches fs₀ sin₀ fs' sin' (max m (i + 1)) n := by
  have hnb := hl.nblocks
  have hnb₀ := h.nblocks
  refine ⟨h.priv.trans hl.priv, fun k hk => ?_, ?_, ?_, fun k hk hge => ?_, ?_,
    hl.ino.trans h.ino, hl.size.trans h.size, hl.type.trans h.type⟩
  · by_cases hki : k = i
    · rw [hki, hl.self]
      exact hl.ne
    · have hbound := h.bound
      rw [hl.old k (by omega) hki]
      exact h.filled k (by omega)
  · have hbound := h.bound
    omega
  · omega
  · rw [hl.old k hk (by omega)]
    exact h.rest k hk (by omega)
  · have hd := hl.demand hle hi hn fun hlt => h.filled i hlt
    have hbudget := h.budget
    omega

theorem Fails.count (hf : Fails fs fs') (hok : FsOk fs) : fs'.freemap.count = fs.freemap.count := by
  rw [← hf.ok.unused, ← hok.unused, hf.unused]

theorem Fails.noBlock (hf : Fails fs fs') (hok : FsOk fs) (hmap : MapOk fs din) :
    NoBlock fs' din ↔ NoBlock fs din := by
  rw [NoBlock, NoBlock, (hf.private hmap).2, hf.count hok]

/-- A look-up that finds no free block. -/
theorem Reaches.fails (h : Reaches fs₀ sin₀ fs sin m n) (hf : Fails fs fs') :
    Reaches fs₀ sin₀ fs' sin m n := by
  obtain ⟨hp, hat⟩ := hf.private h.priv.map
  have hcount := hf.count h.priv.ok
  have hdemand : demand fs' sin.din n = demand fs sin.din n := by
    simp only [demand, hat]
  refine ⟨h.priv.trans hp, fun k hk => ?_, h.bound, h.nblocks, fun k hk hge => ?_, ?_, h.ino, h.size,
    h.type⟩
  · rw [hat]
    exact h.filled k hk
  · rw [hat]
    exact h.rest k hk hge
  · rw [hcount, hdemand]
    exact h.budget

theorem Fails.bytes (hf : Fails fs fs') (hmap : MapOk fs din) {y : ℕ}
    (hy : y / SFS_BLKSIZE < maxBlocks) : byteAt fs' din y = byteAt fs din y := by
  rw [byteAt, byteAt, (hf.private hmap).2]
  by_cases h0 : blockAt fs din (y / SFS_BLKSIZE) = 0
  · rw [if_pos h0, if_pos h0]
  · rw [if_neg h0, if_neg h0, hf.disk _ (hmap.inUse _ hy h0).2.2]

/-- Block 1036 of the file is out of range. -/
theorem sfsBmapLoad_out (hle : maxBlocks ≤ i) (hi : i ≤ sin.din.blocks) :
    sfsBmapLoad fs sin i = .error .indexOutOfRange := by
  have hd : ¬ i < SFS_NDIRECT := by
    rw [maxBlocks] at hle
    omega
  have hj : ¬ i - SFS_NDIRECT < SFS_BLK_NENTRY := by
    rw [maxBlocks] at hle
    omega
  rw [sfsBmapLoad, ensure_pos hi, ok_bind]
  show (sfsBmapGet fs sin i _ >>= _) = _
  rw [sfsBmapGet]
  show ((if i < SFS_NDIRECT then _ else if i - SFS_NDIRECT < SFS_BLK_NENTRY then _ else _) >>= _) = _
  rw [if_neg hd, if_neg hj, error_bind]

/-- The bytes of the file are those of the function `f`. -/
def Holds (fs : Fs) (din : DiskInode) (f : ℕ → UInt8) : Prop :=
  ∀ y, y / SFS_BLKSIZE < maxBlocks → byteAt fs din y = f y

/-- What `sfs_bmap_load_nolock` does for block `i` on the way to block `t`: the block is there, or the
free blocks do not suffice for the demand, or the map has no entry for it although they do. -/
inductive Step (fs₀ : Fs) (sin₀ : Inode) (fs : Fs) (sin : Inode) (f : ℕ → UInt8) (i m n : ℕ) :
    Except Panic (Ret ℕ × Fs × Inode) → Prop
  | found {b : ℕ} {fs' : Fs} {sin' : Inode} (h : Reaches fs₀ sin₀ fs' sin' (max m (i + 1)) n)
      (hi : i < maxBlocks) (hself : blockAt fs' sin'.din i = b) (hne : b ≠ 0)
      (hf : Holds fs' sin'.din f) (hsame : i < sin.din.blocks → fs' = fs ∧ sin' = sin) :
      Step fs₀ sin₀ fs sin f i m n (.ok (.ok b, fs', sin'))
  | full {fs' : Fs} (h : Reaches fs₀ sin₀ fs' sin m n) (hi : i = sin.din.blocks)
      (hno : NoBlock fs sin.din) (hno' : NoBlock fs' sin.din)
      (hcount : fs₀.freemap.count < demand fs₀ sin₀.din n) (hf : Holds fs' sin.din f) :
      Step fs₀ sin₀ fs sin f i m n (.ok (.error (-E_NO_MEM), fs', sin))
  | outOfRange (hi : maxBlocks ≤ i) (hcount : demand fs₀ sin₀.din n ≤ fs₀.freemap.count) :
      Step fs₀ sin₀ fs sin f i m n (.error .indexOutOfRange)

/-- **The step of every loop that loads blocks.** -/
theorem load_step {f : ℕ → UInt8} {t : ℕ} (h : Reaches fs₀ sin₀ fs sin m (min t maxBlocks))
    (hf : Holds fs sin.din f) (hle : i ≤ sin.din.blocks) (ht : i < t) :
    Step fs₀ sin₀ fs sin f i m (min t maxBlocks) (sfsBmapLoad fs sin i) := by
  have hbudget := h.budget
  by_cases hi : i < maxBlocks
  · have hlt : i < min t maxBlocks := Nat.lt_min.mpr ⟨ht, hi⟩
    rcases sfsBmapLoad_spec h.priv.ok h.priv.map hi hle (h.filled i) with
      ⟨fs', heq, hfail, h0, hcount⟩ | ⟨b, fs', sin', heq, hl, hsame⟩
    · have hend : i = sin.din.blocks := by
        by_contra hne
        exact h.filled i (by omega) h0
      have hno : NoBlock fs sin.din := by
        rw [hend] at hi h0 hcount
        exact ⟨hi, h0, hcount⟩
      rw [heq]
      refine .full (h.fails hfail) hend hno ((hfail.noBlock h.priv.ok h.priv.map).mpr hno) ?_
        fun y hy => ?_
      · rw [hend] at h0 hcount hlt
        have hcost := cost_le_demand h0 hlt
        omega
      · exact (hfail.bytes h.priv.map hy).trans (hf y hy)
    · rw [heq]
      exact .found (h.load hl hle hlt (Nat.min_le_right _ _)) hi hl.self hl.ne
        (fun y hy => (hl.bytes hy).trans (hf y hy)) hsame
  · rw [sfsBmapLoad_out (Nat.not_lt.mp hi) hle]
    refine .outOfRange (Nat.not_lt.mp hi) ?_
    have hzero : demand fs sin.din (min t maxBlocks) = 0 :=
      demand_of_le ((Nat.min_le_right _ _).trans (by omega))
    omega

/-- The outcome of the loop of `sfs_truncfile` that adds blocks up to block `t`. -/
inductive Grown (fs₀ : Fs) (sin₀ : Inode) (f : ℕ → UInt8) (t : ℕ) :
    Except Panic (ℤ × Fs × Inode) → Prop
  | all {fs : Fs} {sin : Inode} (h : Reaches fs₀ sin₀ fs sin t (min t maxBlocks))
      (hf : Holds fs sin.din f) : Grown fs₀ sin₀ f t (.ok (0, fs, sin))
  | full {fs : Fs} {sin : Inode} {m : ℕ} (h : Reaches fs₀ sin₀ fs sin m (min t maxBlocks))
      (hm : sin.din.blocks < t) (hcount : fs₀.freemap.count < demand fs₀ sin₀.din (min t maxBlocks))
      (hf : Holds fs sin.din f) : Grown fs₀ sin₀ f t (.ok (-E_NO_MEM, fs, sin))
  | outOfRange (ht : maxBlocks < t)
      (hcount : demand fs₀ sin₀.din (min t maxBlocks) ≤ fs₀.freemap.count) :
      Grown fs₀ sin₀ f t (.error .indexOutOfRange)

/-- **The loop of `sfs_truncfile` that adds blocks.** -/
theorem growLoop_spec {f : ℕ → UInt8} : ∀ {k : ℕ} {m : ℕ} {fs : Fs} {sin : Inode},
    Reaches fs₀ sin₀ fs sin m (min (sin.din.blocks + k) maxBlocks) → Holds fs sin.din f →
    Grown fs₀ sin₀ f (sin.din.blocks + k) (growLoop k sin.din.blocks fs sin) := by
  intro k
  induction k with
  | zero =>
    intro m fs sin h hf
    refine .all ⟨h.priv, h.filled, h.bound, ?_, h.rest, h.budget, h.ino, h.size, h.type⟩ hf
    have hnb := h.nblocks
    omega
  | succ k ih =>
    intro m fs sin h hf
    have hstep := load_step h hf (Nat.le_refl _) (show sin.din.blocks < sin.din.blocks + (k + 1) by
      omega)
    rw [growLoop]
    cases hload : sfsBmapLoad fs sin sin.din.blocks with
    | error p =>
      rw [hload] at hstep
      cases hstep with
      | outOfRange hi hcount => exact .outOfRange (by omega) hcount
    | ok r =>
      obtain ⟨ret, fs', sin'⟩ := r
      rw [hload] at hstep
      rw [ok_bind]
      cases hstep with
      | found h' hi hself hne hf' hsame =>
        have hnb := h'.nblocks
        have hnb₀ := h.nblocks
        have hnext : sin'.din.blocks = sin.din.blocks + 1 := by omega
        have hsum : sin.din.blocks + (k + 1) = sin'.din.blocks + k := by omega
        rw [hsum] at h' ⊢
        rw [← hnext]
        exact ih h' hf'
      | full h' hi hno hno' hcount hf' => exact .full h' (by omega) hcount hf'

/-! ### Blocks taken from the end -/

/-- The file has been cut to `n` blocks. -/
structure Shrinks (fs : Fs) (sin : Inode) (fs' : Fs) (sin' : Inode) (n : ℕ) : Prop where
  file : FileOk fs' sin'.din
  priv : Private fs sin.din fs' sin'.din
  nblocks : sin'.din.blocks = n
  map : ∀ k < maxBlocks, blockAt fs' sin'.din k =
    if n ≤ k ∧ k < sin.din.blocks then 0 else blockAt fs sin.din k
  disk : ∀ c, c ≠ sin.din.indirect → fs'.disk c = fs.disk c
  indirect : sin'.din.indirect = sin.din.indirect
  ino : sin'.ino = sin.ino
  size : sin'.din.size = sin.din.size
  type : sin'.din.type = sin.din.type

theorem Shrinks.trans {fs₁ fs₂ fs₃ : Fs} {sin₁ sin₂ sin₃ : Inode}
    (h₁ : Shrinks fs₁ sin₁ fs₂ sin₂ m) (h₂ : Shrinks fs₂ sin₂ fs₃ sin₃ n) (hm : m ≤ sin₁.din.blocks)
    (hn : n ≤ m) : Shrinks fs₁ sin₁ fs₃ sin₃ n := by
  refine ⟨h₂.file, h₁.priv.trans h₂.priv, h₂.nblocks, fun k hk => ?_, fun c hc => ?_,
    h₂.indirect.trans h₁.indirect, h₂.ino.trans h₁.ino, h₂.size.trans h₁.size,
    h₂.type.trans h₁.type⟩
  · rw [h₂.map k hk, h₁.map k hk, h₁.nblocks]
    by_cases hlow : n ≤ k ∧ k < m
    · have hin : n ≤ k ∧ k < sin₁.din.blocks := by omega
      rw [if_pos hlow, if_pos hin]
    · rw [if_neg hlow]
      exact if_congr (by omega) rfl rfl
  · rw [h₂.disk c (by rw [h₁.indirect]; exact hc), h₁.disk c hc]

/-- The blocks that are left keep their bytes. -/
theorem Shrinks.bytes (h : Shrinks fs sin fs' sin' n) (hmap : MapOk fs sin.din) {y : ℕ}
    (hy : y / SFS_BLKSIZE < maxBlocks) : byteAt fs' sin'.din y =
      if n ≤ y / SFS_BLKSIZE ∧ y / SFS_BLKSIZE < sin.din.blocks then 0 else byteAt fs sin.din y := by
  rw [byteAt, byteAt, h.map _ hy]
  by_cases hcut : n ≤ y / SFS_BLKSIZE ∧ y / SFS_BLKSIZE < sin.din.blocks
  · rw [if_pos hcut, if_pos rfl, if_pos hcut]
  · rw [if_neg hcut, if_neg hcut]
    by_cases h0 : blockAt fs sin.din (y / SFS_BLKSIZE) = 0
    · rw [if_pos h0, if_pos h0]
    · rw [if_neg h0, if_neg h0, h.disk _ fun heq => ?_]
      rw [heq] at h0
      exact (hmap.indirect h0).2 _ hy heq

/-- **`sfs_bmap_truncate_nolock`** takes the last block. -/
theorem sfsBmapTruncate_spec (h : FileOk fs sin.din) (hpos : sin.din.blocks ≠ 0) :
    ∃ fs' sin', sfsBmapTruncate fs sin = .ok (fs', sin') ∧
      Shrinks fs sin fs' sin' (sin.din.blocks - 1) := by
  have hbound := h.bound
  have hi : sin.din.blocks - 1 < maxBlocks := by omega
  have hne := h.filled (sin.din.blocks - 1) (by omega)
  obtain ⟨fs', sin', heq, hu⟩ := sfsBmapFree_spec h.ok h.map hi hne
  have hnb := hu.nblocks
  have hp : Private fs sin.din fs' { sin'.din with blocks := sin'.din.blocks - 1 } :=
    (hu.private h.map hi hne).congr rfl rfl
  refine ⟨fs', ⟨{ sin'.din with blocks := sin'.din.blocks - 1 }, sin'.ino, true⟩, ?_,
    ⟨⟨hp.ok, hp.map, fun k hk => ?_, ?_⟩, hp, ?_, fun k hk => ?_, hu.disk, hu.indirect, hu.ino,
      hu.size, hu.type⟩⟩
  · rw [sfsBmapTruncate, ensure_pos hpos, ok_bind, heq, ok_bind]
  · have hk' : k < sin'.din.blocks - 1 := hk
    refine (hu.map k (by omega)).trans_ne ?_
    rw [if_neg (by omega)]
    exact h.filled k (by omega)
  · show sin'.din.blocks - 1 ≤ maxBlocks
    omega
  · show sin'.din.blocks - 1 = _
    rw [hnb]
  · refine (hu.map k hk).trans ?_
    exact if_congr (by omega) rfl rfl

/-- **The loop of `sfs_truncfile` that frees blocks** goes through. -/
theorem shrinkLoop_spec : ∀ {k : ℕ} {fs : Fs} {sin : Inode}, FileOk fs sin.din →
    k ≤ sin.din.blocks → ∃ fs' sin', shrinkLoop k fs sin = .ok (fs', sin') ∧
      Shrinks fs sin fs' sin' (sin.din.blocks - k) := by
  intro k
  induction k with
  | zero =>
    intro fs sin h _
    refine ⟨fs, sin, rfl, h, Private.refl h.ok h.map, rfl, fun j _ => ?_, fun _ _ => rfl, rfl, rfl, rfl,
      rfl⟩
    rw [if_neg (by omega)]
  | succ k ih =>
    intro fs sin h hk
    obtain ⟨fs₁, sin₁, heq₁, h₁⟩ := sfsBmapTruncate_spec h (by omega)
    have hnb := h₁.nblocks
    obtain ⟨fs₂, sin₂, heq₂, h₂⟩ := ih h₁.file (by omega)
    have hsub : sin₁.din.blocks - k = sin.din.blocks - (k + 1) := by omega
    rw [hsub] at h₂
    refine ⟨fs₂, sin₂, ?_, h₁.trans h₂ (by omega) (by omega)⟩
    rw [shrinkLoop, heq₁, ok_bind]
    exact heq₂

end Ucore.Sfs
