import Ucore.Mksfs.Calls

/-!
# The image

What `close_sfs` writes: the freemap, the super block, the blocks with block numbers and the inodes.
Each block is written once, so the order does not matter, and the blocks of the files are not written
again (`ImageIs`).
-/

namespace Ucore.Mksfs

open Fallible Function Memory Sfs

variable {s s' : SfsFs} {use : ℕ → Use} {g c k len : ℕ} {data : Mem} {img : ℕ → Mem}

/-! ### Writing blocks -/

/-- The contents of a block after `write_block`. -/
def padded (data : Mem) (len : ℕ) : Mem := fun i => if i < len then data i else 0

/-- Whatever the image is, the program writes the blocks in `T`, and what it writes to each is what
`W` says. -/
def Writes (s : SfsFs) (W : ℕ → Mem) (T : Set ℕ) (p : SfsFs → Except Bug SfsFs) : Prop :=
  ∀ img, ∃ img', p { s with img := img } = .ok { s with img := img' } ∧
    (∀ c ∈ T, img' c = W c) ∧ ∀ c ∉ T, img' c = img c

variable {W : ℕ → Mem} {T T' : Set ℕ} {p q : SfsFs → Except Bug SfsFs}

theorem writes_block {d : SfsFs → Mem} (hlen : len ≤ SFS_BLKSIZE) (hc : c < s.ninos)
    (hW : ∀ img, padded (d { s with img := img }) len = W c) :
    Writes s W {c} fun s => s.writeBlock (d s) len c := by
  intro img
  refine ⟨update img c (W c), ?_, ?_, ?_⟩
  · rw [← hW img]
    exact bind_eq_ok.mpr ⟨(), require_pos ⟨hlen, hc⟩, rfl⟩
  · rintro b rfl
    exact update_self _ _ _
  · intro b hb
    exact update_of_ne hb _ _

theorem Writes.seq (hp : Writes s W T p) (hq : Writes s W T' q) :
    Writes s W (T ∪ T') fun s => p s >>= q := by
  intro img
  obtain ⟨img₁, hp, hwritten, hkept⟩ := hp img
  obtain ⟨img₂, hq, hwritten', hkept'⟩ := hq img₁
  refine ⟨img₂, ?_, ?_, ?_⟩
  · exact bind_eq_ok.mpr ⟨_, hp, hq⟩
  · intro c hc
    by_cases hc' : c ∈ T'
    · exact hwritten' c hc'
    · rw [hkept' c hc']
      exact hwritten c (hc.resolve_right hc')
  · intro c hc
    rw [hkept' c fun h => hc (Or.inr h), hkept c fun h => hc (Or.inl h)]

theorem Writes.foldlM {α : Type} {l : List α} {f : SfsFs → α → Except Bug SfsFs} {T : α → Set ℕ}
    (h : ∀ a ∈ l, Writes s W (T a) fun s => f s a) :
    Writes s W {c | ∃ a ∈ l, c ∈ T a} fun s => l.foldlM f s := by
  induction l with
  | nil =>
    intro img
    exact ⟨img, rfl, fun c ⟨a, ha, _⟩ => absurd ha List.not_mem_nil, fun _ _ => rfl⟩
  | cons a l ih =>
    intro img
    have hrest := ih fun b hb => h b (List.mem_cons_of_mem _ hb)
    obtain ⟨img', heq, hwritten, hkept⟩ := (h a List.mem_cons_self).seq hrest img
    refine ⟨img', ?_, ?_, ?_⟩
    · exact List.foldlM_cons.trans heq
    · rintro c ⟨b, hb, hc⟩
      rcases List.mem_cons.mp hb with rfl | hb
      · exact hwritten c (Or.inl hc)
      · exact hwritten c (Or.inr ⟨b, hb, hc⟩)
    · intro c hc
      apply hkept
      rintro (hin | ⟨b, hb, hin⟩)
      · exact hc ⟨a, List.mem_cons_self, hin⟩
      · exact hc ⟨b, List.mem_cons_of_mem _ hb, hin⟩

/-! ### What `close_sfs` writes -/

/-- The buffer of `close_sfs` for freemap block `k`. -/
def SfsFs.freemapBlock (s : SfsFs) (k : ℕ) : Mem :=
  words32 fun ix => (SfsFs.freemapData s.ninos s.nextIno (k * SFS_BLKBITS) ix).toNat

/-- The bytes of `super`. -/
def SfsFs.superBlock (s : SfsFs) : Mem :=
  encodeSuper SFS_MAGIC s.ninos s.unusedBlocks SfsFs.superInfo

/-- The contents of each block that is written. -/
def SfsFs.layout (s : SfsFs) (use : ℕ → Use) (c : ℕ) : Mem :=
  if c = SFS_BLKN_SUPER then padded s.superBlock sizeofSuper
  else if SFS_BLKN_FREEMAP ≤ c ∧ c < s.first then
    padded (s.freemapBlock (c - SFS_BLKN_FREEMAP)) SFS_BLKSIZE
  else if c = SFS_BLKN_ROOT ∨ use c = .inode then
    padded (SfsFs.inodeBytes (s.inode c).inode) SfsFs.sizeofInode
  else padded (s.cache c) SFS_BLKSIZE

structure ImageIs (s : SfsFs) (use : ℕ → Use) (img : ℕ → Mem) : Prop where
  super : img SFS_BLKN_SUPER = padded s.superBlock sizeofSuper
  freemap : ∀ k < sfsFreemapBlocks s.ninos,
    img (SFS_BLKN_FREEMAP + k) = padded (s.freemapBlock k) SFS_BLKSIZE
  inode : ∀ g, s.IsInode g → img g = padded (SfsFs.inodeBytes (s.inode g).inode) SfsFs.sizeofInode
  table : ∀ c g, s.Has use c (.table g) ∨ s.Has use c (.dtable g) → img c = padded (s.cache c) SFS_BLKSIZE
  data : ∀ c g, s.Has use c (.data g) → img c = s.img c

theorem first_eq (s : SfsFs) : s.first = 2 + sfsFreemapBlocks s.ninos := rfl

theorem layout_inode (hok : Ok s use) (hg : s.IsInode g) :
    s.layout use g = padded (SfsFs.inodeBytes (s.inode g).inode) SfsFs.sizeofInode := by
  obtain ⟨i, hi⟩ := hg
  have hfirst := first_eq s
  rw [SfsFs.layout, SFS_BLKN_SUPER, SFS_BLKN_FREEMAP, SFS_BLKN_ROOT]
  rcases (hok.inodes i g hi).2 with hroot | ⟨hlow, -, huse⟩
  · rw [hroot, SFS_BLKN_ROOT, if_neg (by omega), if_neg (by omega), if_pos (Or.inl rfl)]
  · rw [if_neg (by omega), if_neg (by omega), if_pos (Or.inr huse)]

theorem layout_table (hhas : s.Has use c (.table g) ∨ s.Has use c (.dtable g)) :
    s.layout use c = padded (s.cache c) SFS_BLKSIZE := by
  have hfirst := first_eq s
  have hlow : s.first ≤ c := hhas.elim (fun h => h.1) fun h => h.1
  have huse : use c ≠ .inode := by
    rcases hhas with h | h
    · exact fun heq => nomatch h.2.2.symm.trans heq
    · exact fun heq => nomatch h.2.2.symm.trans heq
  rw [SfsFs.layout, SFS_BLKN_SUPER, SFS_BLKN_FREEMAP, SFS_BLKN_ROOT, if_neg (by omega),
    if_neg (by omega), if_neg fun h => h.elim (by omega) huse]

theorem closeSfs_eq (s : SfsFs) : s.closeSfs = ((List.range (sfsFreemapBlocks s.ninos)).foldlM
    (fun s k => s.writeBlock (s.freemapBlock k) SFS_BLKSIZE (SFS_BLKN_FREEMAP + k)) s >>= fun s =>
      s.writeBlock s.superBlock sizeofSuper SFS_BLKN_SUPER >>= fun s =>
        (List.range HASH_LIST_SIZE).foldlM (fun s i => (s.blocks i).foldlM SfsFs.flushCacheBlock s >>=
          fun s => (s.inodes i).foldlM SfsFs.flushCacheInode s) s >>= fun s => .ok s.img) := rfl

/-- **`close_sfs`** does not fail. -/
theorem closeSfs_ok (hok : Ok s use) : ∃ img, s.closeSfs = .ok img ∧ ImageIs s use img := by
  have hfirst := hok.first_le
  have hle := hok.le
  have hlast := first_eq s
  have hfreemap : Writes s (s.layout use) {c | ∃ k ∈ List.range (sfsFreemapBlocks s.ninos),
      c ∈ ({SFS_BLKN_FREEMAP + k} : Set ℕ)} fun s' => (List.range (sfsFreemapBlocks s.ninos)).foldlM
        (fun s' k => s'.writeBlock (s'.freemapBlock k) SFS_BLKSIZE (SFS_BLKN_FREEMAP + k)) s' := by
    apply Writes.foldlM
    intro k hk
    rw [List.mem_range] at hk
    apply writes_block (d := fun s' => s'.freemapBlock k) le_rfl
    · rw [SFS_BLKN_FREEMAP]
      omega
    · intro img
      show padded (s.freemapBlock k) _ = _
      rw [SfsFs.layout, SFS_BLKN_SUPER, SFS_BLKN_FREEMAP, if_neg (by omega), if_pos (by omega),
        Nat.add_sub_cancel_left]
  have hsuper : Writes s (s.layout use) {SFS_BLKN_SUPER}
      fun s' => s'.writeBlock s'.superBlock sizeofSuper SFS_BLKN_SUPER := by
    apply writes_block (d := SfsFs.superBlock) (by decide)
    · rw [SFS_BLKN_SUPER]
      omega
    · exact fun img => (if_pos rfl).symm
  have hcache : ∀ i, Writes s (s.layout use) {c | ∃ b ∈ s.blocks i, c ∈ ({b} : Set ℕ)}
      fun s' => (s'.blocks i).foldlM SfsFs.flushCacheBlock s' := by
    intro i
    have hwrites : Writes s (s.layout use) {c | ∃ b ∈ s.blocks i, c ∈ ({b} : Set ℕ)}
        fun s' => (s.blocks i).foldlM SfsFs.flushCacheBlock s' := by
      apply Writes.foldlM
      intro c hc
      obtain ⟨-, g, hhas⟩ := hok.blocks i c hc
      apply writes_block (d := fun s' => s'.cache c) le_rfl
      · exact (hhas.elim (fun h => h.2.1) fun h => h.2.1).trans_le hle
      · exact fun img => (layout_table hhas).symm
    exact hwrites
  have hinodes : ∀ i, Writes s (s.layout use) {c | ∃ g ∈ s.inodes i, c ∈ ({g} : Set ℕ)}
      fun s' => (s'.inodes i).foldlM SfsFs.flushCacheInode s' := by
    intro i
    have hwrites : Writes s (s.layout use) {c | ∃ g ∈ s.inodes i, c ∈ ({g} : Set ℕ)}
        fun s' => (s.inodes i).foldlM SfsFs.flushCacheInode s' := by
      apply Writes.foldlM
      intro g hg
      apply writes_block (d := fun s' => SfsFs.inodeBytes (s'.inode g).inode) (by decide)
      · exact (hok.lt_nextIno ⟨i, hg⟩).trans_le hle
      · exact fun img => (layout_inode hok ⟨i, hg⟩).symm
    exact hwrites
  obtain ⟨img, heq, hwritten, hkept⟩ := ((hfreemap.seq hsuper).seq
    (Writes.foldlM (l := List.range HASH_LIST_SIZE) fun i _ => (hcache i).seq (hinodes i))) s.img
  obtain ⟨s₂, heq, h₃⟩ := bind_eq_ok.mp heq
  obtain ⟨s₁, h₁, h₂⟩ := bind_eq_ok.mp heq
  have hclose : s.closeSfs = .ok img := by
    rw [closeSfs_eq]
    refine bind_eq_ok.mpr ⟨s₁, h₁, ?_⟩
    refine bind_eq_ok.mpr ⟨s₂, h₂, ?_⟩
    exact bind_eq_ok.mpr ⟨_, h₃, rfl⟩
  refine ⟨img, hclose, ?_⟩
  constructor
  · rw [hwritten _ (Or.inl (Or.inr rfl))]
    exact if_pos rfl
  · intro k hk
    rw [hwritten _ (Or.inl (Or.inl ⟨k, List.mem_range.mpr hk, rfl⟩)), SfsFs.layout, SFS_BLKN_SUPER,
      SFS_BLKN_FREEMAP, if_neg (by omega), if_pos (by omega), Nat.add_sub_cancel_left]
  · rintro g ⟨i, hi⟩
    rw [← layout_inode hok ⟨i, hi⟩]
    have hlt := (hok.inodes i g hi).1
    exact hwritten g (Or.inr ⟨i, List.mem_range.mpr hlt, Or.inr ⟨g, hi, rfl⟩⟩)
  · intro c g hhas
    obtain ⟨i, hi⟩ := hok.listed c g hhas
    rw [← layout_table hhas]
    have hlt := (hok.blocks i c hi).1
    exact hwritten c (Or.inr ⟨i, List.mem_range.mpr hlt, Or.inl ⟨c, hi, rfl⟩⟩)
  · rintro c g ⟨hlow, -, huse⟩
    apply hkept
    rintro ((⟨k, hk, rfl⟩ | rfl) | ⟨i, -, ⟨b, hb, rfl⟩ | ⟨h, hh, rfl⟩⟩)
    · rw [List.mem_range] at hk
      rw [SFS_BLKN_FREEMAP] at hlow
      omega
    · rw [SFS_BLKN_SUPER] at hlow
      omega
    · obtain ⟨-, h, hhas⟩ := hok.blocks i c hb
      rcases hhas with hhas | hhas
      · cases huse.symm.trans hhas.2.2
      · cases huse.symm.trans hhas.2.2
    · rcases (hok.inodes i c hh).2 with hroot | hhas
      · rw [hroot, SFS_BLKN_ROOT] at hlow
        omega
      · cases huse.symm.trans hhas.2.2

end Ucore.Mksfs
