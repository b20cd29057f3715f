import Ucore.Sfs.Growth

/-!
# The transfer of `sfs_io_nolock`

The head, the whole blocks and the tail of a transfer are all cases of one step, the transfer of bytes
that lie in one block (`ioPart_spec`): a whole block is such a part (`ioBlocks_succ`).  `Moved d io`
says that the first `d` bytes have been transferred.  `ioTransfer_spec` has the three outcomes: all
bytes are transferred; the free blocks do not suffice, and the transfer stops at a block boundary or
at its very start; or the map of the inode has no entry for a block.
-/

namespace Ucore.Sfs

open Memory

variable {fs fs' fs₀ : Fs} {sin sin' sin₀ : Inode} {buf buf₀ : Mem} {write : Bool}
variable {offset t d n k b : ℕ} {io io' : Io}

/-- The bytes of the file after `d` bytes of the buffer have been written at `offset`. -/
def overlay (f : ℕ → UInt8) (write : Bool) (buf : Mem) (offset d : ℕ) : ℕ → UInt8 := fun y =>
  if write = true ∧ offset ≤ y ∧ y < offset + d then buf (y - offset) else f y

/-- The buffer after `d` bytes of the file have been read from `offset`. -/
def filled (f : ℕ → UInt8) (write : Bool) (buf : Mem) (offset d : ℕ) : Mem := fun x =>
  if write = false ∧ x < d then f (offset + x) else buf x

/-- The number of blocks that reach to the end of `d > 0` bytes at `offset`. -/
def blocksTo (offset d : ℕ) : ℕ := if d = 0 then 0 else (offset + d + SFS_BLKSIZE - 1) / SFS_BLKSIZE

/-- The first `d` bytes have been transferred; `t` bounds the blocks of the whole transfer. -/
structure Moved (fs₀ : Fs) (sin₀ : Inode) (buf₀ : Mem) (write : Bool) (offset t d : ℕ) (io : Io) :
    Prop where
  alen : io.alen = d
  reach : Reaches fs₀ sin₀ io.fs io.sin (blocksTo offset d) (min t maxBlocks)
  bytes : Holds io.fs io.sin.din (overlay (byteAt fs₀ sin₀.din) write buf₀ offset d)
  buf : io.buf = filled (byteAt fs₀ sin₀.din) write buf₀ offset d
  same : t ≤ sin₀.din.blocks → io.sin = sin₀ ∧ (write = false → io.fs = fs₀)
  first : d = 0 → (NoBlock io.fs io.sin.din ↔ NoBlock fs₀ sin₀.din)

theorem moved_zero (h : FileOk fs₀ sin₀.din) (ret : ℤ) :
    Moved fs₀ sin₀ buf₀ write offset t 0 ⟨ret, 0, fs₀, sin₀, buf₀⟩ := by
  refine ⟨rfl, Reaches.refl h _, fun y _ => ?_, funext fun x => ?_, fun _ => ⟨rfl, fun _ => rfl⟩,
    fun _ => Iff.rfl⟩
  · rw [overlay, if_neg (by omega)]
  · rw [filled, if_neg (by omega)]

/-- `sfs_block_op` is `sfs_buf_op` of a whole block. -/
theorem sfsBlockOp_eq (write : Bool) (fs : Fs) (buf : Mem) (pos blkno : ℕ) :
    sfsBlockOp write fs buf pos blkno = sfsBufOp write fs buf pos SFS_BLKSIZE blkno 0 := by
  have hfit : 0 < SFS_BLKSIZE ∧ 0 + SFS_BLKSIZE ≤ SFS_BLKSIZE := by decide
  cases write with
  | true =>
    show (sfsWblock _ _ _ >>= _) = (sfsWbuf _ _ _ _ _ >>= _)
    rw [sfsWblock, sfsWbuf, ensure_pos hfit, ok_bind]
  | false =>
    show (sfsRblock _ _ >>= _) = (sfsRbuf _ _ _ _ >>= _)
    rw [sfsRblock, sfsRbuf, ensure_pos hfit, ok_bind]
    simp only [Nat.zero_add]

/-- So the loop over whole blocks is a sequence of parts. -/
theorem ioBlocks_succ (nblks blkno : ℕ) (hret : io.ret = 0)
    (hload : ∀ fs sin, sfsBmapLoad io.fs io.sin blkno ≠ .ok (.error 0, fs, sin)) :
    ioBlocks write (nblks + 1) blkno io = (ioPart write blkno 0 SFS_BLKSIZE io >>= fun io' =>
      if io'.ret ≠ 0 then .ok io' else ioBlocks write nblks (blkno + 1) io') := by
  rw [ioBlocks, ioPart]
  cases heq : sfsBmapLoad io.fs io.sin blkno with
  | error p => rfl
  | ok r =>
    obtain ⟨ret, fs, sin⟩ := r
    cases ret with
    | error e =>
      have he : e ≠ 0 := by
        rintro rfl
        exact hload fs sin heq
      rw [ok_bind, ok_bind, ok_bind, if_pos he]
    | ok ino =>
      rw [ok_bind, ok_bind]
      simp only [sfsBlockOp_eq]
      cases sfsBufOp write fs io.buf io.alen SFS_BLKSIZE ino 0 with
      | error p => rfl
      | ok r =>
        rw [ok_bind, ok_bind, ok_bind]
        rw [if_neg (not_not.mpr hret)]

/-! ### One part -/

/-- `sfs_buf_op` on a block of the file. -/
theorem sfsBufOp_spec (h : FileOk fs sin.din) (hk : k < maxBlocks) (hself : blockAt fs sin.din k = b)
    (hne : b ≠ 0) {pos size blkoff : ℕ} (hoff : blkoff < SFS_BLKSIZE)
    (hfit : blkoff + size ≤ SFS_BLKSIZE) :
    sfsBufOp write fs buf pos size b blkoff = .ok (
      if write = true then
        (fs.setDisk b (memcpy (fs.disk b) blkoff (fun i => buf (pos + i)) size), buf)
      else (fs, memcpy buf pos (fun i => fs.disk b (blkoff + i)) size)) := by
  have hin : InUse fs b := by
    rw [← hself] at hne ⊢
    exact h.map.inUse k hk hne
  cases write with
  | true =>
    show (sfsWbuf _ _ _ _ _ >>= _) = _
    rw [sfsWbuf_spec hin hoff hfit, ok_bind, if_pos rfl]
  | false =>
    show (sfsRbuf _ _ _ _ >>= _) = _
    rw [sfsRbuf_spec hin hoff hfit, ok_bind, if_neg Bool.false_ne_true]

/-- A write inside block `k` changes the bytes of the file at this place. -/
theorem holds_setDisk {f : ℕ → UInt8} (src : Mem) {blkoff size : ℕ} (h : FileOk fs sin.din)
    (hf : Holds fs sin.din f) (hk : k < maxBlocks) (hself : blockAt fs sin.din k = b) (hne : b ≠ 0)
    (hfit : blkoff + size ≤ SFS_BLKSIZE) :
    Holds (fs.setDisk b (memcpy (fs.disk b) blkoff src size)) sin.din fun y =>
      if k * SFS_BLKSIZE + blkoff ≤ y ∧ y < k * SFS_BLKSIZE + blkoff + size then
        src (y - (k * SFS_BLKSIZE + blkoff)) else f y := by
  subst hself
  intro y hy
  have hold := hf y hy
  rw [byteAt] at hold
  rw [byteAt, blockAt_setDisk h.map hk]
  have hdiv := Nat.div_add_mod' y SFS_BLKSIZE
  have hmod : y % SFS_BLKSIZE < SFS_BLKSIZE := Nat.mod_lt _ (by decide)
  by_cases hyk : y / SFS_BLKSIZE = k
  · rw [hyk] at hold hdiv ⊢
    rw [if_neg hne] at hold ⊢
    have hdisk : (fs.setDisk (blockAt fs sin.din k)
        (memcpy (fs.disk (blockAt fs sin.din k)) blkoff src size)).disk (blockAt fs sin.din k) =
        memcpy (fs.disk (blockAt fs sin.din k)) blkoff src size := Function.update_self _ _ _
    rw [hdisk]
    by_cases hin : blkoff ≤ y % SFS_BLKSIZE ∧ y % SFS_BLKSIZE < blkoff + size
    · rw [memcpy_of_mem hin.1 hin.2]
      show _ = if _ then _ else _
      rw [if_pos (by omega)]
      congr 1
      omega
    · rw [memcpy_of_not hin, hold]
      show _ = if _ then _ else _
      rw [if_neg (by omega)]
  · have hout : ¬ (k * SFS_BLKSIZE + blkoff ≤ y ∧ y < k * SFS_BLKSIZE + blkoff + size) := by
      rintro ⟨h₁, h₂⟩
      refine hyk (Nat.div_eq_of_lt_le ?_ ?_)
      · omega
      · rw [Nat.add_mul, Nat.one_mul]
        omega
    show _ = if _ then _ else _
    rw [if_neg hout, ← hold]
    by_cases h0 : blockAt fs sin.din (y / SFS_BLKSIZE) = 0
    · rw [if_pos h0, if_pos h0]
    · rw [if_neg h0, if_neg h0]
      refine congrFun (Function.update_of_ne (fun heq => hyk ?_) _ _) _
      exact h.map.inj _ hy _ hk heq h0

theorem Reaches.setDisk {m : ℕ} (h : Reaches fs₀ sin₀ fs sin m n) (hk : k < maxBlocks)
    (hself : blockAt fs sin.din k = b) (hne : b ≠ 0) (mem : Mem) :
    Reaches fs₀ sin₀ (fs.setDisk b mem) sin m n := by
  subst hself
  have hat : ∀ i, blockAt (fs.setDisk (blockAt fs sin.din k) mem) sin.din i = blockAt fs sin.din i :=
    fun i => blockAt_setDisk h.priv.map hk
  refine ⟨h.priv.trans (private_setDisk h.priv.ok h.priv.map hk hne mem), fun i hi => ?_, h.bound,
    h.nblocks, fun i hi hge => ?_, ?_, h.ino, h.size, h.type⟩
  · rw [hat]
    exact h.filled i hi
  · rw [hat]
    exact h.rest i hi hge
  · have hdemand : demand (fs.setDisk (blockAt fs sin.din k) mem) sin.din n =
        demand fs sin.din n := by
      simp only [demand, hat]
    rw [hdemand]
    exact h.budget

/-- What one part does: its bytes are transferred, or the look-up of its block fails. -/
inductive Part (fs₀ : Fs) (sin₀ : Inode) (buf₀ : Mem) (write : Bool) (offset t d n : ℕ) :
    Except Panic Io → Prop
  | moved {io : Io} (h : Moved fs₀ sin₀ buf₀ write offset t (d + n) io) (hret : io.ret = 0) :
      Part fs₀ sin₀ buf₀ write offset t d n (.ok io)
  | full {io : Io} (h : Moved fs₀ sin₀ buf₀ write offset t d io) (hret : io.ret = -E_NO_MEM)
      (hblocks : io.sin.din.blocks = (offset + d) / SFS_BLKSIZE)
      (hfirst : d = 0 → NoBlock fs₀ sin₀.din)
      (hcount : fs₀.freemap.count < demand fs₀ sin₀.din (min t maxBlocks))
      (hlast : NoBlock io.fs io.sin.din) :
      Part fs₀ sin₀ buf₀ write offset t d n (.ok io)
  | outOfRange (hi : maxBlocks ≤ (offset + d) / SFS_BLKSIZE)
      (hcount : demand fs₀ sin₀.din (min t maxBlocks) ≤ fs₀.freemap.count) :
      Part fs₀ sin₀ buf₀ write offset t d n (.error .indexOutOfRange)

theorem Moved.start (h : Moved fs₀ sin₀ buf₀ write offset t d io)
    (hstart : offset / SFS_BLKSIZE ≤ sin₀.din.blocks) :
    (offset + d) / SFS_BLKSIZE ≤ io.sin.din.blocks := by
  have hnb := h.reach.nblocks
  rw [blocksTo, SFS_BLKSIZE] at hnb
  rw [SFS_BLKSIZE] at hstart ⊢
  by_cases hd : d = 0
  · subst hd
    rw [if_pos rfl] at hnb
    omega
  · rw [if_neg hd] at hnb
    omega

/-- **One part of a transfer**: `n` bytes that lie in one block. -/
theorem ioPart_spec (h : Moved fs₀ sin₀ buf₀ write offset t d io) (hret : io.ret = 0)
    (hstart : offset / SFS_BLKSIZE ≤ sin₀.din.blocks) (hn : 0 < n)
    (hfit : (offset + d) % SFS_BLKSIZE + n ≤ SFS_BLKSIZE) (ht : (offset + d) / SFS_BLKSIZE < t) :
    Part fs₀ sin₀ buf₀ write offset t d n
      (ioPart write ((offset + d) / SFS_BLKSIZE) ((offset + d) % SFS_BLKSIZE) n io) := by
  have hstep := load_step h.reach h.bytes (h.start hstart) ht
  have hoff : (offset + d) % SFS_BLKSIZE < SFS_BLKSIZE := Nat.mod_lt _ (by decide)
  have hpos : (offset + d) / SFS_BLKSIZE * SFS_BLKSIZE + (offset + d) % SFS_BLKSIZE = offset + d :=
    Nat.div_add_mod' _ _
  have hmax : max (blocksTo offset d) ((offset + d) / SFS_BLKSIZE + 1) = blocksTo offset (d + n) := by
    rw [blocksTo, blocksTo, if_neg (show d + n ≠ 0 by omega)]
    rw [SFS_BLKSIZE] at *
    by_cases hd : d = 0
    · rw [if_pos hd]
      omega
    · rw [if_neg hd]
      omega
  rw [ioPart]
  cases hload : sfsBmapLoad io.fs io.sin ((offset + d) / SFS_BLKSIZE) with
  | error p =>
    rw [hload] at hstep
    cases hstep with
    | outOfRange hi hcount => exact .outOfRange hi hcount
  | ok r =>
    obtain ⟨ret, fs, sin⟩ := r
    rw [hload] at hstep
    rw [ok_bind]
    cases hstep with
    | full hr hi hno hno' hcount hf =>
      refine .full ⟨h.alen, hr, hf, h.buf, fun hle => ?_, fun hd => ?_⟩ rfl hi.symm
        (fun hd => (h.first hd).mp hno) hcount hno'
      · have hnb := h.reach.nblocks
        omega
      · exact (iff_of_true hno' hno).trans (h.first hd)
    | found hr hi hself hne hf hsame =>
      rw [hmax] at hr
      show Part _ _ _ _ _ _ _ _ (sfsBufOp _ _ _ _ _ _ _ >>= _)
      rw [sfsBufOp_spec hr.fileOk hi hself hne hoff hfit, ok_bind]
      cases write with
      | true =>
        rw [if_pos rfl]
        refine .moved ⟨?_, ?_, fun y hy => ?_, h.buf, fun hle => ⟨?_, fun hw => ?_⟩,
          fun hd => by omega⟩ hret
        · show io.alen + n = d + n
          rw [h.alen]
        · exact hr.setDisk hi hself hne _
        · have hw := holds_setDisk (fun i => io.buf (io.alen + i)) hr.fileOk hf hi hself hne hfit y
            hy
          refine hw.trans ?_
          show (if _ then io.buf _ else _) = _
          rw [hpos, h.alen, h.buf]
          simp only [overlay, filled, true_and, Bool.true_eq_false, false_and, if_false]
          by_cases hin : offset + d ≤ y ∧ y < offset + d + n
          · rw [if_pos hin, if_pos (by omega)]
            congr 1
            omega
          · rw [if_neg hin]
            exact if_congr (by omega) rfl rfl
        · have hnb := h.reach.nblocks
          exact (hsame (by omega)).2.trans (h.same hle).1
        · exact absurd hw.symm Bool.false_ne_true
      | false =>
        rw [if_neg Bool.false_ne_true]
        refine .moved ⟨?_, hr, fun y hy => ?_, funext fun x => ?_, fun hle => ?_,
          fun hd => by omega⟩ hret
        · show io.alen + n = d + n
          rw [h.alen]
        · exact hf y hy
        · dsimp only
          rw [h.alen, h.buf]
          by_cases hin : d ≤ x ∧ x < d + n
          · have hy : (offset + x) / SFS_BLKSIZE = (offset + d) / SFS_BLKSIZE ∧
                (offset + x) % SFS_BLKSIZE = (offset + d) % SFS_BLKSIZE + (x - d) := by
              rw [SFS_BLKSIZE] at *
              omega
            have hbyte := hf (offset + x) (hy.1 ▸ hi)
            rw [byteAt, hy.1, hself, if_neg hne, hy.2, overlay, if_neg (by simp)] at hbyte
            rw [memcpy_of_mem hin.1 hin.2, filled, if_pos ⟨rfl, hin.2⟩]
            exact hbyte
          · rw [memcpy_of_not hin, filled, filled]
            exact if_congr (and_congr_right fun _ => by omega) rfl rfl
        · have hnb := h.reach.nblocks
          obtain ⟨hfs, hsin⟩ := hsame (by omega)
          obtain ⟨hsin₀, hfs₀⟩ := h.same hle
          exact ⟨hsin.trans hsin₀, fun hw => hfs.trans (hfs₀ hw)⟩

/-! ### The whole transfer -/

/-- How a transfer of `total` bytes stops early: the free blocks do not suffice, at a block boundary or
at the very start; or a block has no entry in the map. -/
inductive Stops (fs₀ : Fs) (sin₀ : Inode) (buf₀ : Mem) (write : Bool) (offset t total : ℕ) :
    Except Panic Io → Prop
  | full {io : Io} {d : ℕ} (h : Moved fs₀ sin₀ buf₀ write offset t d io) (hret : io.ret = -E_NO_MEM)
      (hd : d < total) (hedge : d = 0 ∨ SFS_BLKSIZE ∣ offset + d)
      (hblocks : io.sin.din.blocks = (offset + d) / SFS_BLKSIZE)
      (hfirst : d = 0 → NoBlock fs₀ sin₀.din)
      (hcount : fs₀.freemap.count < demand fs₀ sin₀.din (min t maxBlocks))
      (hlast : NoBlock io.fs io.sin.din) :
      Stops fs₀ sin₀ buf₀ write offset t total (.ok io)
  | outOfRange (hi : maxBlocks * SFS_BLKSIZE < offset + total)
      (hcount : demand fs₀ sin₀.din (min t maxBlocks) ≤ fs₀.freemap.count) :
      Stops fs₀ sin₀ buf₀ write offset t total (.error .indexOutOfRange)

/-- The transfer goes through, or stops early. -/
inductive Transfer (fs₀ : Fs) (sin₀ : Inode) (buf₀ : Mem) (write : Bool) (offset t total : ℕ) :
    Except Panic Io → Prop
  | all {io : Io} (h : Moved fs₀ sin₀ buf₀ write offset t total io) (hret : io.ret = 0) :
      Transfer fs₀ sin₀ buf₀ write offset t total (.ok io)
  | stops {x : Except Panic Io} (h : Stops fs₀ sin₀ buf₀ write offset t total x) :
      Transfer fs₀ sin₀ buf₀ write offset t total x

/-- What follows an early stop is skipped. -/
theorem Stops.bind {total : ℕ} {x : Except Panic Io} {f : Io → Except Panic Io}
    (h : Stops fs₀ sin₀ buf₀ write offset t total x) (hskip : ∀ io, io.ret ≠ 0 → f io = .ok io) :
    (x >>= f) = x := by
  cases h with
  | full h hret => rw [ok_bind, hskip _ (by rw [hret]; decide)]
  | outOfRange => rfl

/-- One part of a transfer up to block `t`, after which the transfer goes on with `f`. -/
theorem Part.bind {total : ℕ} {x : Except Panic Io} {f : Io → Except Panic Io}
    {P : Except Panic Io → Prop} (hp : Part fs₀ sin₀ buf₀ write offset t d n x)
    (hedge : d = 0 ∨ SFS_BLKSIZE ∣ offset + d) (hd : d < total) 
    (hstop : ∀ y, Stops fs₀ sin₀ buf₀ write offset t total y → P y)
    (hskip : ∀ io, io.ret ≠ 0 → f io = .ok io)
    (hf : ∀ io, io.ret = 0 → Moved fs₀ sin₀ buf₀ write offset t (d + n) io → P (f io)) :
    P (x >>= f) := by
  cases hp with
  | moved h hret => exact hf _ hret h
  | full h hret hblocks hfirst hcount hlast =>
    rw [ok_bind, hskip _ (by rw [hret]; decide)]
    exact hstop _ (.full h hret hd hedge hblocks hfirst hcount hlast)
  | outOfRange hi hcount =>
    rw [error_bind]
    refine hstop _ (.outOfRange ?_ hcount)
    have hle := (Nat.le_div_iff_mul_le (show 0 < SFS_BLKSIZE by decide)).mp hi
    omega

/-- A look-up of the transfer never returns 0 as an error. -/
theorem load_ne_zero (h : Moved fs₀ sin₀ buf₀ write offset t d io)
    (hstart : offset / SFS_BLKSIZE ≤ sin₀.din.blocks) (ht : (offset + d) / SFS_BLKSIZE < t) :
    ∀ fs sin, sfsBmapLoad io.fs io.sin ((offset + d) / SFS_BLKSIZE) ≠ .ok (.error 0, fs, sin) := by
  intro fs sin heq
  have hstep := load_step h.reach h.bytes (h.start hstart) ht
  rw [heq] at hstep
  nomatch hstep

/-- **The loop of `sfs_io_nolock`** over whole blocks. -/
theorem ioBlocks_spec {total : ℕ} (hstart : offset / SFS_BLKSIZE ≤ sin₀.din.blocks)
    (ht : t = blocksTo offset total) : ∀ {nblks d : ℕ} {io : Io},
    Moved fs₀ sin₀ buf₀ write offset t d io → io.ret = 0 → (nblks ≠ 0 → SFS_BLKSIZE ∣ offset + d) →
    d + nblks * SFS_BLKSIZE ≤ total →
    (∃ io', ioBlocks write nblks ((offset + d) / SFS_BLKSIZE) io = .ok io' ∧ io'.ret = 0 ∧
        Moved fs₀ sin₀ buf₀ write offset t (d + nblks * SFS_BLKSIZE) io') ∨
      Stops fs₀ sin₀ buf₀ write offset t total
        (ioBlocks write nblks ((offset + d) / SFS_BLKSIZE) io) := by
  intro nblks
  induction nblks with
  | zero =>
    intro d io h hret _ _
    rw [Nat.zero_mul, Nat.add_zero]
    exact Or.inl ⟨io, rfl, hret, h⟩
  | succ nblks ih =>
    intro d io h hret hdvd hle
    have hdvd' := hdvd (Nat.succ_ne_zero _)
    have hmul : (nblks + 1) * SFS_BLKSIZE = nblks * SFS_BLKSIZE + SFS_BLKSIZE := Nat.succ_mul _ _
    have hmod : (offset + d) % SFS_BLKSIZE = 0 := Nat.mod_eq_zero_of_dvd hdvd'
    have hlt : (offset + d) / SFS_BLKSIZE < t := by
      rw [ht, blocksTo, if_neg (by rw [SFS_BLKSIZE] at *; omega)]
      rw [SFS_BLKSIZE] at *
      omega
    have hnext : (offset + d) / SFS_BLKSIZE + 1 = (offset + (d + SFS_BLKSIZE)) / SFS_BLKSIZE := by
      rw [← Nat.add_assoc, Nat.add_div_right _ (by decide)]
    have hpart := ioPart_spec h hret hstart (show 0 < SFS_BLKSIZE by decide)
      (by rw [hmod, Nat.zero_add]) hlt
    rw [hmod] at hpart
    rw [ioBlocks_succ _ _ hret (load_ne_zero h hstart hlt)]
    refine hpart.bind (P := fun x => (∃ io', x = .ok io' ∧ io'.ret = 0 ∧
      Moved fs₀ sin₀ buf₀ write offset t (d + (nblks + 1) * SFS_BLKSIZE) io') ∨
      Stops fs₀ sin₀ buf₀ write offset t total x)
      (Or.inr hdvd') (show d < total by rw [SFS_BLKSIZE] at *; omega) (fun y hy => Or.inr hy)
      (fun io' hne => if_pos hne) (fun io' hret' h' => ?_)
    · rw [if_neg (not_not.mpr hret'), hnext]
      have hsum : d + (nblks + 1) * SFS_BLKSIZE = d + SFS_BLKSIZE + nblks * SFS_BLKSIZE := by omega
      rw [hsum]
      refine ih h' hret' (fun _ => ?_) (by omega)
      rw [← Nat.add_assoc]
      exact Nat.dvd_add hdvd' (Nat.dvd_refl _)

/-- What remains of a transfer after its head: `nblks` whole blocks, and the tail. -/
theorem ioRest_spec {total : ℕ} (nblks : ℕ)
    (hm : Moved fs₀ sin₀ buf₀ write offset (blocksTo offset total) d io)
    (hret : io.ret = 0) (hstart : offset / SFS_BLKSIZE ≤ sin₀.din.blocks)
    (hdvd : SFS_BLKSIZE ∣ offset + d) (hle : d + nblks * SFS_BLKSIZE ≤ total)
    (hlast : total < d + nblks * SFS_BLKSIZE + SFS_BLKSIZE) :
    Transfer fs₀ sin₀ buf₀ write offset (blocksTo offset total) total
      (ioBlocks write nblks ((offset + d) / SFS_BLKSIZE) io >>= fun io =>
        if io.ret ≠ 0 then .ok io else
        if offset + io.alen < offset + total then
          ioPart write ((offset + d) / SFS_BLKSIZE + nblks) 0
            (offset + total - (offset + io.alen)) io
        else .ok io) := by
  rcases ioBlocks_spec hstart rfl hm hret (fun _ => hdvd) hle with ⟨io', heq, hret', hm'⟩ | hstop
  · rw [heq, ok_bind, if_neg (not_not.mpr hret'), hm'.alen]
    by_cases hlt : d + nblks * SFS_BLKSIZE < total
    · have hmod : (offset + (d + nblks * SFS_BLKSIZE)) % SFS_BLKSIZE = 0 := by
        rw [← Nat.add_assoc, Nat.add_mul_mod_self_right]
        exact Nat.mod_eq_zero_of_dvd hdvd
      have hdiv : (offset + d) / SFS_BLKSIZE + nblks =
          (offset + (d + nblks * SFS_BLKSIZE)) / SFS_BLKSIZE := by
        rw [← Nat.add_assoc, Nat.add_mul_div_right _ _ (by decide)]
      have hpart := ioPart_spec hm' hret' hstart
        (show 0 < total - (d + nblks * SFS_BLKSIZE) by omega) (by rw [hmod]; omega)
        (by rw [blocksTo, if_neg (by omega)]; rw [SFS_BLKSIZE] at *; omega)
      have hsize : offset + total - (offset + (d + nblks * SFS_BLKSIZE)) =
          total - (d + nblks * SFS_BLKSIZE) := by omega
      rw [hmod, ← hdiv] at hpart
      rw [if_pos (by omega), hsize]
      generalize ioPart write _ 0 _ io' = x at hpart ⊢
      cases hpart with
      | moved h hret =>
        rw [Nat.add_sub_cancel' hle] at h
        exact .all h hret
      | full h hret hblocks hfirst hcount hlast =>
        exact .stops (.full h hret hlt (Or.inr (Nat.dvd_of_mod_eq_zero hmod)) hblocks hfirst hcount
          hlast)
      | outOfRange hi hcount =>
        have hle' := (Nat.le_div_iff_mul_le (show 0 < SFS_BLKSIZE by decide)).mp hi
        exact .stops (.outOfRange (by omega) hcount)
    · have hall : d + nblks * SFS_BLKSIZE = total := by omega
      rw [if_neg (by omega)]
      rw [hall] at hm'
      exact .all hm' hret'
  · rw [hstop.bind fun io hne => if_pos hne]
    exact .stops hstop

/-- **The three parts of a transfer** of `total` bytes. -/
theorem ioTransfer_spec (write : Bool) (buf₀ : Mem) {total : ℕ} (h : FileOk fs₀ sin₀.din)
    (hstart : offset / SFS_BLKSIZE ≤ sin₀.din.blocks) (htotal : 0 < total) :
    Transfer fs₀ sin₀ buf₀ write offset (blocksTo offset total) total
      (ioTransfer write offset (offset + total) ⟨0, 0, fs₀, sin₀, buf₀⟩) := by
  have h₀ : Moved fs₀ sin₀ buf₀ write offset (blocksTo offset total) 0 ⟨0, 0, fs₀, sin₀, buf₀⟩ :=
    moved_zero h 0
  have hdiv := Nat.div_add_mod' offset SFS_BLKSIZE
  have hend := Nat.div_add_mod' (offset + total) SFS_BLKSIZE
  have hlt : offset % SFS_BLKSIZE < SFS_BLKSIZE := Nat.mod_lt _ (by decide)
  have hlt' : (offset + total) % SFS_BLKSIZE < SFS_BLKSIZE := Nat.mod_lt _ (by decide)
  have hmono : offset / SFS_BLKSIZE ≤ (offset + total) / SFS_BLKSIZE :=
    Nat.div_le_div_right (Nat.le_add_right _ _)
  obtain ⟨nblks, hnblks⟩ := Nat.exists_eq_add_of_le hmono
  have hsub : (offset + total) / SFS_BLKSIZE - offset / SFS_BLKSIZE = nblks := by omega
  have hmul : (offset + total) / SFS_BLKSIZE * SFS_BLKSIZE =
      offset / SFS_BLKSIZE * SFS_BLKSIZE + nblks * SFS_BLKSIZE := by rw [hnblks, Nat.add_mul]
  rw [ioTransfer, hsub]
  by_cases hoff : offset % SFS_BLKSIZE ≠ 0
  · rw [if_pos hoff, if_pos hoff]
    have hbound : blocksTo offset total ≠ 0 ∧ offset / SFS_BLKSIZE < blocksTo offset total := by
      rw [blocksTo, if_neg (by omega)]
      rw [SFS_BLKSIZE] at *
      omega
    by_cases hn : nblks = 0
    · -- the transfer lies in one block
      subst hn
      have hsize : (if (0 : ℕ) ≠ 0 then SFS_BLKSIZE - offset % SFS_BLKSIZE
          else offset + total - offset) = 0 + total := by
        rw [if_neg (by decide)]
        omega
      have hpart := ioPart_spec (n := 0 + total) h₀ rfl hstart (by omega) (by
        rw [Nat.add_zero]
        omega) hbound.2
      simp only [hsize]
      refine hpart.bind (P := Transfer fs₀ sin₀ buf₀ write offset (blocksTo offset total) total)
        (Or.inl rfl) htotal (fun _ => .stops) (fun _ hne => if_pos hne) fun io hret hm => ?_
      rw [Nat.zero_add, Nat.zero_add] at hm
      rw [if_neg (not_not.mpr hret)]
      show Transfer _ _ _ _ _ _ _ (if io.ret ≠ 0 then _ else if offset + io.alen < _ then _ else _)
      rw [if_neg (not_not.mpr hret), hm.alen, if_neg (Nat.lt_irrefl _)]
      exact .all hm hret
    · have hsize : (if nblks ≠ 0 then SFS_BLKSIZE - offset % SFS_BLKSIZE
          else offset + total - offset) = SFS_BLKSIZE - offset % SFS_BLKSIZE := if_pos hn
      have hpred : (nblks - 1) * SFS_BLKSIZE + SFS_BLKSIZE = nblks * SFS_BLKSIZE := by
        rw [← Nat.succ_mul]
        congr 1
        omega
      have hpart := ioPart_spec (n := SFS_BLKSIZE - offset % SFS_BLKSIZE) h₀ rfl hstart (by omega) (by
        rw [Nat.add_zero]
        omega) hbound.2
      simp only [hsize]
      refine hpart.bind (P := Transfer fs₀ sin₀ buf₀ write offset (blocksTo offset total) total)
        (Or.inl rfl) htotal (fun _ => .stops) (fun _ hne => if_pos hne) fun io hret hm => ?_
      have hedge : offset + (0 + (SFS_BLKSIZE - offset % SFS_BLKSIZE)) =
          (offset / SFS_BLKSIZE + 1) * SFS_BLKSIZE := by
        rw [Nat.succ_mul]
        omega
      have hnext : (offset + (0 + (SFS_BLKSIZE - offset % SFS_BLKSIZE))) / SFS_BLKSIZE =
          offset / SFS_BLKSIZE + 1 := by
        rw [hedge, Nat.mul_div_cancel _ (by decide)]
      have hrest := ioRest_spec (nblks - 1) hm hret hstart (hedge ▸ Nat.dvd_mul_left _ _)
        (by omega) (by omega)
      rw [hnext] at hrest
      rw [if_neg (not_not.mpr hret)]
      exact hrest
  · have hmod : offset % SFS_BLKSIZE = 0 := not_not.mp hoff
    rw [if_neg hoff, if_neg hoff, ok_bind, if_neg (not_not.mpr rfl)]
    have hrest := ioRest_spec nblks h₀ rfl hstart
      (Nat.dvd_of_mod_eq_zero hmod) (by omega) (by omega)
    exact hrest

end Ucore.Sfs
