import Ucore.Cow.Runs
import Ucore.Exec.Argv
import Ucore.Exec.Refused
import Ucore.Exec.Segments

/-!
# The memory image of a program

A segment that is filled stays in memory while other segments, the stack and the arguments are put into
other pages.  So a result 0 means that all segments are in memory, unless a page is refused
(**`loadIcode_memory_iff`**).
-/

namespace Ucore.Exec

open Fallible (bind_ok)
open Cow (State Perm PTE_V PTE_USER E_NO_MEM has userByte userByte_of_view mapping view Sharing)
open Memory (Mem read16 read32 read16_congr read32_congr)
open Vmm (Uintptr PGSIZE mmMap)

/-! ### The headers of a file -/

def elfHeader (file : List UInt8) : Elfhdr := decodeElfhdr (fileAt file 0)

def progHeader (file : List UInt8) (i : ℕ) : Proghdr :=
  decodeProghdr (fileAt file ((elfHeader file).phoff i).toNat)

/-- The segments to be loaded are below the stack, and no two of them have a page in common. -/
structure LoadsApart (file : List UInt8) : Prop where
  below : ∀ i < (elfHeader file).ePhnum, (progHeader file i).pType = ELF_PT_LOAD →
    (progHeader file i).pVa.toNat + (progHeader file i).pMemsz.toNat ≤ (USTACKTOP - USTACKSIZE).toNat
  apart : ∀ i < (elfHeader file).ePhnum, ∀ j < (elfHeader file).ePhnum, i ≠ j →
    (progHeader file i).pType = ELF_PT_LOAD → (progHeader file j).pType = ELF_PT_LOAD →
      ∀ p, (progHeader file i).Touches p → ¬ (progHeader file j).Touches p

/-- The segment is in memory: the bytes of the file, then zeros, and each of its pages is mapped once, with
its permissions. -/
structure Proghdr.InMemory (ph : Proghdr) (file : List UInt8) (a : ℕ) (s : State) : Prop where
  file : ∀ i < ph.pFilesz.toNat, userByte s a (ph.pVa.toNat + i) = file[ph.pOffset.toNat + i]?
  zero : ∀ i, ph.pFilesz.toNat ≤ i → i < ph.pMemsz.toNat → userByte s a (ph.pVa.toNat + i) = some 0
  pages : ∀ p, ph.Touches p → (s.pte a p).flags = segPerm ph.pFlags ∧
    ∃ f, mapping s (a, p) = some f ∧ s.ref f = 1 ∧ ∀ y, mapping s y = some f → y = (a, p)

variable {env : Env} {pool : Set ℕ} {a p n i : ℕ} {s s' : State} {ph ph' : Proghdr} {io : Io}
  {file bytes : List UInt8} {image : Image} {elf : Elfhdr} {m m' : Mem}

theorem decodeElfhdr_congr (h : ∀ i < sizeofElfhdr, m' i = m i) : decodeElfhdr m' = decodeElfhdr m := by
  have h' : ∀ n k, n + k ≤ 64 → ∀ i, n ≤ i → i < n + k → m' i = m i :=
    fun n k hk i _ hi => h i (show i < 64 by omega)
  rw [decodeElfhdr, decodeElfhdr, read32_congr (h' 0 4 (by decide)), read64_congr (h' 24 8 (by decide)),
    read64_congr (h' 32 8 (by decide)), read16_congr (h 56 (by decide)) (h 57 (by decide))]

theorem decodeProghdr_congr (h : ∀ i < sizeofProghdr, m' i = m i) :
    decodeProghdr m' = decodeProghdr m := by
  have h' : ∀ n k, n + k ≤ 56 → ∀ i, n ≤ i → i < n + k → m' i = m i :=
    fun n k hk i _ hi => h i (show i < 56 by omega)
  rw [decodeProghdr, decodeProghdr, read32_congr (h' 0 4 (by decide)), read32_congr (h' 4 4 (by decide)),
    read64_congr (h' 8 8 (by decide)), read64_congr (h' 16 8 (by decide)),
    read64_congr (h' 32 8 (by decide)), read64_congr (h' 40 8 (by decide))]

/-- What is read is what is in the file. -/
theorem fileAt_of_read {len : ℕ} {offset : ℤ} (h : loadIcodeRead io file len offset = (0, bytes)) :
    ∀ i < len, fileAt bytes 0 i = fileAt file offset.toNat i := by
  intro i hi
  rw [fileAt, Nat.zero_add]
  exact ((loadIcodeRead_ok h).2.2 i hi).2

/-! ### Segments -/

/-- The segment stays where it is. -/
theorem Proghdr.Filled.keep (h : ph.Filled file a s)
    (hbyte : ∀ y, ph.Touches (y / 4096) → userByte s' a y = userByte s a y)
    (hpte : ∀ q, ph.Touches q → s'.pte a q = s.pte a q) : ph.Filled file a s' where
  size := h.size
  read := h.read
  bytes y hlo hhi := (hbyte y ⟨y, hlo, hhi, rfl⟩).trans (h.bytes y hlo hhi)
  flags p hp := by
    rw [hpte p hp]
    exact h.flags p hp

theorem Proghdr.Filled.within (h : ph.Filled file a s) (hw : ph'.Within a s s')
    (hapart : ∀ p, ph.Touches p → ¬ ph'.Touches p) : ph.Filled file a s' :=
  h.keep (fun _ hy => userByte_of_view (hw.view a _ fun hq => hapart _ hy hq.2))
    fun q hq => hw.pte a q fun hq' => hapart q hq hq'.2

/-- **The body of the loop over the headers.** -/
theorem loadSegment_spec (env : Env) (image : Image) (h : Own pool a image.pages)
    (hbelow : ph.pType = ELF_PT_LOAD →
      ph.pVa.toNat + ph.pMemsz.toNat ≤ (USTACKTOP - USTACKSIZE).toNat) :
    (∃ stop, loadSegment env a ph image = .error stop ∧ stop ≠ .panic .partialPage) ∨
    ∃ image', loadSegment env a ph image = .ok image' ∧ Own pool a image'.pages ∧
      (ph.pType = ELF_PT_LOAD → ph.Filled env.file a image'.pages ∧ ph.Within a image.pages image'.pages) ∧
      (ph.pType ≠ ELF_PT_LOAD → image' = image) := by
  rw [loadSegment]
  by_cases htype : ph.pType ≠ ELF_PT_LOAD
  · rw [if_pos htype]
    exact Or.inr ⟨image, rfl, h, fun ht => absurd ht htype, fun _ => rfl⟩
  rw [if_neg htype]
  rw [not_not] at htype
  have hbound := hbelow htype
  change _ ≤ 0x7FF00000 at hbound
  by_cases hsize : ph.pFilesz > ph.pMemsz
  · rw [if_pos hsize]
    exact Or.inl ⟨_, rfl, fun heq => by cases heq⟩
  rw [if_neg hsize]
  have hle : ph.pFilesz.toNat ≤ ph.pMemsz.toNat := not_lt.mp fun hlt => hsize (BitVec.lt_def.mpr hlt)
  by_cases hempty : ph.pMemsz = 0
  · rw [if_pos hempty]
    have hzero : ph.pMemsz.toNat = 0 := congrArg BitVec.toNat hempty
    refine Or.inr ⟨image, rfl, h, fun _ => ⟨⟨hle, fun hpos => ?_, fun _ hlo hhi => ?_, ?_⟩,
      fun _ _ _ => rfl, fun _ _ _ => rfl⟩, fun ht => absurd htype ht⟩
    · omega
    · omega
    · rintro p ⟨y, hlo, hhi, -⟩
      omega
  rw [if_neg hempty]
  have hpos : 0 < ph.pMemsz.toNat :=
    Nat.pos_of_ne_zero fun hzero => hempty (BitVec.eq_of_toNat_eq hzero)
  cases hmap : mmMap (env.vma image.vmas) image.mm ph.pVa ph.pMemsz (segVmFlags ph.pFlags) with
  | error p => exact Or.inl ⟨_, rfl, fun heq => by cases heq⟩
  | ok r =>
    obtain ⟨ret, area, mm⟩ := r
    dsimp only
    by_cases hret : ret ≠ 0
    · rw [if_pos hret]
      exact Or.inl ⟨_, rfl, fun heq => by cases heq⟩
    rw [if_neg hret]
    rcases fillSegment_spec env { image with mm := mm, vmas := image.vmas + 1 } h hle hpos
      (by omega) with ⟨ret, herr⟩ | ⟨image', hok, hown, hfilled, hwithin⟩
    · exact Or.inl ⟨_, herr, fun heq => by cases heq⟩
    · exact Or.inr ⟨image', hok, hown, fun _ => ⟨hfilled, hwithin⟩, fun ht => absurd htype ht⟩

/-- **The loop over the headers**; the segments of the first `i` are in memory. -/
theorem loadSegments_spec (hfile : LoadsApart env.file) (n i : ℕ) (image : Image)
    (hn : i + n = (elfHeader env.file).ePhnum) (h : Own pool a image.pages)
    (hdone : ∀ j < i, (progHeader env.file j).pType = ELF_PT_LOAD →
      (progHeader env.file j).Filled env.file a image.pages) :
    (∃ stop, loadSegments env a (elfHeader env.file) n i image = .error stop ∧ stop ≠ .panic .partialPage) ∨
    ∃ image', loadSegments env a (elfHeader env.file) n i image = .ok image' ∧ Own pool a image'.pages ∧
      (∀ j < (elfHeader env.file).ePhnum, (progHeader env.file j).pType = ELF_PT_LOAD →
        (progHeader env.file j).Filled env.file a image'.pages) ∧
      ∀ q, 0x7FF00 ≤ q → image'.pages.pte a q = image.pages.pte a q := by
  induction n generalizing i image with
  | zero => exact Or.inr ⟨image, rfl, h, fun j hj => hdone j (by omega), fun _ _ => rfl⟩
  | succ n ih =>
    rw [loadSegments]
    obtain ⟨⟨ret, bytes⟩, hread⟩ : ∃ r, loadIcodeRead (env.io image.reads) env.file sizeofProghdr
        ((elfHeader env.file).phoff i).toInt = r := ⟨_, rfl⟩
    simp only [hread]
    by_cases hret : ret ≠ 0
    · rw [if_pos hret]
      exact Or.inl ⟨_, rfl, fun heq => by cases heq⟩
    rw [if_neg hret]
    rw [not_not] at hret
    subst hret
    have hoffset := toInt_eq_of_nonneg (loadIcodeRead_ok hread).1
    have hbytes := fileAt_of_read hread
    rw [hoffset, Int.toNat_natCast] at hbytes
    have hph : decodeProghdr (fileAt bytes 0) = progHeader env.file i := decodeProghdr_congr hbytes
    rw [hph]
    rcases loadSegment_spec env { image with reads := image.reads + 1 } h
      (hfile.below i (by omega)) with ⟨stop, herr, hstop⟩ | ⟨image', hok, hown, hload, hskip⟩
    · rw [herr]
      exact Or.inl ⟨stop, rfl, hstop⟩
    rw [hok]
    have hstack : ∀ q, 0x7FF00 ≤ q → image'.pages.pte a q = image.pages.pte a q := by
      intro q hq
      by_cases htype : (progHeader env.file i).pType = ELF_PT_LOAD
      · refine (hload htype).2.pte a q ?_
        rintro ⟨-, y, -, hhi, rfl⟩
        have hbelow := hfile.below i (by omega) htype
        change _ ≤ 0x7FF00000 at hbelow
        omega
      · rw [hskip htype]
    have hdone' : ∀ j < i + 1, (progHeader env.file j).pType = ELF_PT_LOAD →
        (progHeader env.file j).Filled env.file a image'.pages := by
      intro j hj htype
      rcases Nat.lt_succ_iff_lt_or_eq.mp hj with hlt | rfl
      · by_cases hi : (progHeader env.file i).pType = ELF_PT_LOAD
        · exact (hdone j hlt htype).within (hload hi).2
            (hfile.apart j (by omega) i (by omega) (by omega) htype hi)
        · rw [hskip hi]
          exact hdone j hlt htype
      · exact (hload htype).1
    rcases ih (i + 1) image' (by omega) hown hdone' with
      herr | ⟨image'', hrun, hown', hfilled, hrest⟩
    · exact Or.inl herr
    · exact Or.inr ⟨image'', hrun, hown', hfilled, fun q hq => (hrest q hq).trans (hstack q hq)⟩

/-! ### The stack -/

/-- The first pages of the stack. -/
theorem stackPages_spec (env : Env) (n i : ℕ) (image : Image) (hn : i + n ≤ 4) (h : Own pool a image.pages) :
    (∃ stop, stackPages env a n i image = .error stop ∧ stop ≠ .panic .partialPage) ∨
    ∃ image', stackPages env a n i image = .ok image' ∧ Own pool a image'.pages ∧
      Keeps image.pages image'.pages a (0x80000 - (i + n)) (0x80000 - i) ∧
      ∀ q, 0x80000 - (i + n) ≤ q → q < 0x80000 - i → mapping image'.pages (a, q) ≠ none := by
  induction n generalizing i image with
  | zero => exact Or.inr ⟨image, rfl, h, .refl _ _ _ _, fun q hlo hhi => by omega⟩
  | succ n ih =>
    have hla : (USTACKTOP - BitVec.ofNat 64 (i + 1) * PGSIZE).toNat = 0x80000000 - (i + 1) * 4096 := by
      rw [USTACKTOP, PGSIZE]
      bv_omega
    have hpage : pageOf (USTACKTOP - BitVec.ofNat 64 (i + 1) * PGSIZE) = 0x80000 - (i + 1) := by
      rw [pageOf_eq (by omega)]
      omega
    rw [stackPages]
    simp only [hpage]
    rcases pgdirAllocPage_spec h (env.answers image.allocs) (0x80000 - (i + 1))
      (show PTE_V ||| PTE_USER = PTE_USER by decide) with hnone | ⟨page, s', hsome, hown, hmap, d, hputs⟩
    · rw [hnone]
      exact Or.inl ⟨_, rfl, fun heq => by cases heq⟩
    rw [hsome]
    dsimp only
    rcases ih (i + 1) { image with pages := s', allocs := image.allocs + 1 } (by omega) hown with
      ⟨stop, herr, hstop⟩ | ⟨image', hok, hown', hkeeps, hmapped⟩
    · exact Or.inl ⟨stop, herr, hstop⟩
    · have hall := hputs.keeps.trans hkeeps
      rw [Nat.min_eq_right (by omega), Nat.max_eq_left (by omega)] at hall
      refine Or.inr ⟨image', hok, hown', ?_, fun q hlo hhi => ?_⟩
      · rw [show i + (n + 1) = i + 1 + n by omega, show 0x80000 - i = 0x80000 - (i + 1) + 1 by omega]
        exact hall
      · by_cases hq : q = 0x80000 - (i + 1)
        · rw [hq, hkeeps.mapping (by omega), hmap]
          exact Option.some_ne_none page
        · exact hmapped q (by omega) (by omega)

/-- The arguments take less than the area of the stack. -/
theorem le_argvAddr {args : List (List UInt8)} (hlen : ∀ arg ∈ args, arg.length ≤ EXEC_MAX_ARG_LEN)
    (hnum : args.length ≤ EXEC_MAX_ARG_NUM) :
    0x7FFDF000 ≤ argvAddr args ∧ argvAddr args + 8 * (args.length + 1) = argAddr args := by
  have hlow := le_argAddr hlen
  change args.length ≤ 32 at hnum
  rw [argvAddr]
  omega

theorem argvAddr_mod (args : List (List UInt8)) : argvAddr args % 8 = 0 := by
  have hmod := argAddr_mod args
  rw [argvAddr]
  omega

/-- **`load_icode` from the stack on.** -/
theorem loadStack_spec {kargv : List (List UInt8)} (sstatus : Uintptr) (h : Own pool a image.pages)
    (hlen : ∀ arg ∈ kargv, arg.length ≤ EXEC_MAX_ARG_LEN) (hnum : kargv.length ≤ EXEC_MAX_ARG_NUM) :
    (∃ stop, loadStack env a elf kargv sstatus image = .error stop ∧ stop ≠ .panic .partialPage) ∨
    ∃ l pages, loadStack env a elf kargv sstatus image = .ok l ∧ Own pool a l.pages ∧
      Keeps image.pages pages a 0x7FFFC 0x80000 ∧ Pushed pages l.pages a (argvAddr kargv) 0x80000000 ∧
      Laid l.pages a kargv ∧ l.tf.a0 = BitVec.ofNat 64 kargv.length ∧
      l.tf.a1.toNat = argvAddr kargv ∧ l.tf.sp = l.tf.a1 := by
  rw [loadStack]
  cases hmap : mmMap (env.vma image.vmas) image.mm (USTACKTOP - USTACKSIZE) USTACKSIZE
      (Vmm.VM_READ ||| Vmm.VM_WRITE ||| Vmm.VM_STACK) with
  | error p => exact Or.inl ⟨_, rfl, fun heq => by cases heq⟩
  | ok r =>
    obtain ⟨ret, area, mm⟩ := r
    dsimp only
    by_cases hret : ret ≠ 0
    · rw [if_pos hret]
      exact Or.inl ⟨_, rfl, fun heq => by cases heq⟩
    rw [if_neg hret]
    rcases stackPages_spec env 4 0 { image with mm := mm, vmas := image.vmas + 1 } le_rfl h with
      ⟨stop, herr, hstop⟩ | ⟨image', hok, hown, hkeeps, -⟩
    · rw [herr]
      exact Or.inl ⟨stop, rfl, hstop⟩
    rw [hok, bind_ok]
    rcases pushArgv_spec hown hlen hnum with ⟨herr, -⟩ | ⟨sp, s', hrun, hsp, hown', hlaid, hpushed⟩
    · rw [herr]
      exact Or.inl ⟨_, rfl, fun heq => by cases heq⟩
    · rw [hrun]
      have hmod := argvAddr_mod kargv
      have halign : alignWord sp = sp := by
        apply BitVec.eq_of_toNat_eq
        rw [toNat_alignWord]
        omega
      exact Or.inr ⟨_, image'.pages, rfl, hown', hkeeps, hpushed, hlaid, rfl, hsp, halign⟩

/-! ### A program of one segment -/

/-- A segment of two bytes in two pages. -/
def twoPages : List UInt8 :=
  [0x7F, 0x45, 0x4C, 0x46] ++ List.replicate 28 0 ++ [64] ++ List.replicate 23 0 ++ [1] ++
    List.replicate 7 0 ++ [1, 0, 0, 0, 5, 0, 0, 0, 120, 0, 0, 0, 0, 0, 0, 0, 0xFF, 0x0F, 0x80] ++
    List.replicate 13 0 ++ [2] ++ List.replicate 7 0 ++ [2] ++ List.replicate 15 0 ++ [1, 2]

/-- Reads succeed; each call of `alloc_page` gets the next frame. -/
def twoPagesEnv : Env where
  file := twoPages
  mmCreate := true
  setupPgdir := true
  io _ := ⟨0, .ok 4096⟩
  vma _ := true
  answers i := ⟨true, some i⟩

/-- Free frames, nothing mapped. -/
def freePages (n : ℕ) : State where
  mm _ := ⟨[], fun _ => false, fun _ => Cow.Pte.zero⟩
  ref _ := 0
  data _ _ := 0
  free f := decide (f < n)

theorem start_freePages (n : ℕ) : Cow.Start {f | f < n} (freePages n) :=
  ⟨fun _ _ => rfl, fun _ => rfl, fun _ => decide_eq_true_iff⟩

theorem loadsApart_twoPages : LoadsApart twoPages where
  below i hi _ := by
    have hnum : (elfHeader twoPages).ePhnum = 1 := by rfl
    obtain rfl : i = 0 := by omega
    decide
  apart i hi j hj hne := by
    have hnum : (elfHeader twoPages).ePhnum = 1 := by rfl
    omega

theorem not_pageRefused_twoPages : ¬ PageRefused twoPagesEnv 0 (freePages 8) := by
  intro h
  have hnone := (loadIcode_zero_none_iff [[97]] 0).mpr h
  have hsome : (loadIcode twoPagesEnv 0 none [[97]] 0 (freePages 8)).toOption.any
      (fun r => r.2.isSome) = true := by rfl
  rw [hnone] at hsome
  cases hsome

/-! ### The image -/

theorem Proghdr.Filled.inMemory (h : ph.Filled file a s) (hown : Own pool a s) :
    ph.InMemory file a s where
  file i hi := by
    have hread := h.read (by omega)
    have hsize := h.size
    rw [h.bytes _ (by omega) (by omega), Proghdr.byte, if_pos (by omega), Nat.add_sub_cancel_left,
      List.getD_eq_getElem _ _ (by omega), List.getElem?_eq_getElem (by omega)]
  zero i hlo hhi := by
    rw [h.bytes _ (by omega) (by omega), Proghdr.byte, if_neg (by omega)]
  pages p hp := by
    have hflags := h.flags p hp
    have hmap : mapping s (a, p) = some (s.pte a p).ppn :=
      Cow.mapping_eq_some.mpr ⟨hflags ▸ (has_segPerm ph.pFlags).1, rfl⟩
    exact ⟨hflags, _, hmap, hown.ref_one hmap, fun y hy => hown.alone p y _ hmap hy⟩

/-- `load_icode` after `setup_pgdir`. -/
theorem buildImage_spec {kargv : List (List UInt8)} (sstatus : Uintptr) (h : Own pool a s)
    (hlen : ∀ arg ∈ kargv, arg.length ≤ EXEC_MAX_ARG_LEN) (hnum : kargv.length ≤ EXEC_MAX_ARG_NUM)
    (hfile : LoadsApart env.file) :
    (∃ stop, buildImage env a kargv sstatus s = .error stop ∧ stop ≠ .panic .partialPage) ∨
    ∃ l, buildImage env a kargv sstatus s = .ok l ∧
      ∀ i < (elfHeader env.file).ePhnum, (progHeader env.file i).pType = ELF_PT_LOAD →
        (progHeader env.file i).InMemory env.file a l.pages := by
  rw [buildImage]
  obtain ⟨⟨ret, bytes⟩, hread⟩ : ∃ r, loadIcodeRead (env.io 0) env.file sizeofElfhdr 0 = r := ⟨_, rfl⟩
  simp only [hread]
  by_cases hret : ret ≠ 0
  · rw [if_pos hret]
    exact Or.inl ⟨_, rfl, fun heq => by cases heq⟩
  rw [if_neg hret]
  rw [not_not] at hret
  subst hret
  have hbytes := fileAt_of_read hread
  have helf : decodeElfhdr (fileAt bytes 0) = elfHeader env.file := decodeElfhdr_congr hbytes
  rw [helf]
  by_cases hmagic : (elfHeader env.file).eMagic ≠ ELF_MAGIC
  · rw [if_pos hmagic]
    exact Or.inl ⟨_, rfl, fun heq => by cases heq⟩
  rw [if_neg hmagic]
  rcases loadSegments_spec hfile (elfHeader env.file).ePhnum 0 ⟨⟨[], none, 0⟩, s, 1, 0, 0, none⟩
    (Nat.zero_add _) h (fun j hj => absurd hj (Nat.not_lt_zero j)) with
    ⟨stop, herr, hstop⟩ | ⟨image, hok, hown, hfilled, -⟩
  · rw [herr]
    exact Or.inl ⟨stop, rfl, hstop⟩
  rw [hok, bind_ok]
  rcases loadStack_spec sstatus hown hlen hnum with
    ⟨stop, herr, hstop⟩ | ⟨l, pages, hrun, hownl, hkeeps, hpushed, -⟩
  · exact Or.inl ⟨stop, herr, hstop⟩
  refine Or.inr ⟨l, hrun, fun i hi htype => Proghdr.Filled.inMemory ?_ hownl⟩
  -- The segment is below the pages of the stack
  have hbelow := hfile.below i hi htype
  change _ ≤ 0x7FF00000 at hbelow
  have hlow := (le_argvAddr hlen hnum).1
  have htouches : ∀ q, (progHeader env.file i).Touches q → q < 0x7FF00 := by
    rintro q ⟨y, -, hhi, rfl⟩
    omega
  refine (hfilled i hi htype).keep (fun y hy => ?_) fun q hq => ?_
  · have hpage := htouches _ hy
    rw [hpushed.outside y (by omega), hkeeps.userByte (by omega)]
  · have hpage := htouches q hq
    rw [hpushed.pte, hkeeps.pte a q (by omega)]

/-- **`load_icode` builds the memory image** if no page is refused when a segment is read in part.  If one
is, the result is 0 without an address space. -/
theorem loadIcode_memory_iff (env : Env) (a : ℕ) (kargv : List (List UInt8)) (sstatus : Uintptr)
    (pages : State) (hsharing : Sharing pool ∅ pages) (hempty : ∀ p, mapping pages (a, p) = none)
    (hlen : ∀ arg ∈ kargv, arg.length ≤ EXEC_MAX_ARG_LEN) (hnum : kargv.length ≤ EXEC_MAX_ARG_NUM)
    (hfile : LoadsApart env.file) :
    (loadIcode env a none kargv sstatus pages ≠ .error .partialPage ∧
      ∀ r, loadIcode env a none kargv sstatus pages = .ok (0, r) → ∃ l, r = some l ∧
        ∀ i < (elfHeader env.file).ePhnum, (progHeader env.file i).pType = ELF_PT_LOAD →
          (progHeader env.file i).InMemory env.file a l.pages) ↔
    ¬ PageRefused env a pages := by
  constructor
  · rintro ⟨-, hright⟩ hrefused
    obtain ⟨l, hl, -⟩ := hright none ((loadIcode_zero_none_iff kargv sstatus).mpr hrefused)
    cases hl
  intro hrefused
  have hown : Own pool a pages :=
    ⟨hsharing, fun p x f hf _ => absurd (hf.symm.trans (hempty p)) (Option.some_ne_none f)⟩
  have hnone : ∀ r, loadIcode env a none kargv sstatus pages = .ok (0, r) → r ≠ none := by
    rintro r hr rfl
    exact hrefused ((loadIcode_zero_none_iff kargv sstatus).mp hr)
  have hnomem : ∀ r, (Except.ok (-E_NO_MEM, none) : Except Panic (ℤ × Option Loaded)) ≠ .ok (0, r) :=
    fun r h => absurd (Prod.mk.inj (Except.ok.inj h)).1 (by decide)
  rw [loadIcode, if_neg (not_not.mpr rfl)] at hnone ⊢
  by_cases hmm : env.mmCreate = false
  · rw [if_pos hmm]
    exact ⟨(fun heq => by cases heq), fun r hr => absurd hr (hnomem r)⟩
  by_cases hpgdir : env.setupPgdir = false
  · rw [if_neg hmm, if_pos hpgdir]
    exact ⟨(fun heq => by cases heq), fun r hr => absurd hr (hnomem r)⟩
  rw [if_neg hmm, if_neg hpgdir] at hnone ⊢
  rcases buildImage_spec sstatus hown hlen hnum hfile with
    ⟨stop, herr, hstop⟩ | ⟨l, hok, hmemory⟩
  · rw [herr] at hnone ⊢
    cases stop with
    | panic p =>
      refine ⟨fun h => hstop ?_, fun r hr => by cases hr⟩
      rw [Except.error.inj h]
    | cleanup ret =>
      refine ⟨(fun heq => by cases heq), fun r hr => ?_⟩
      cases Except.ok.inj hr
      exact absurd rfl (hnone none rfl)
  · rw [hok]
    refine ⟨(fun heq => by cases heq), fun r hr => ?_⟩
    cases Except.ok.inj hr
    exact ⟨l, rfl, hmemory⟩

/-- With eight free frames the segment is loaded. -/
theorem loadIcode_memory_iff_twoPages :
    loadIcode twoPagesEnv 0 none [[97]] 0 (freePages 8) ≠ .error .partialPage ∧
      ∀ r, loadIcode twoPagesEnv 0 none [[97]] 0 (freePages 8) = .ok (0, r) → ∃ l, r = some l ∧
        ∀ i < (elfHeader twoPages).ePhnum, (progHeader twoPages i).pType = ELF_PT_LOAD →
          (progHeader twoPages i).InMemory twoPages 0 l.pages := by
  exact (loadIcode_memory_iff twoPagesEnv 0 [[97]] 0 (freePages 8) (start_freePages 8).sharing
    (fun p => (start_freePages 8).mapping (0, p)) (by decide) (by decide) loadsApart_twoPages).mpr
    not_pageRefused_twoPages

/-- With one free frame the second page is refused: the result is 0, and there is no address space. -/
theorem loadIcode_refused :
    loadIcode twoPagesEnv 0 none [[97]] 0 (freePages 1) = .ok (0, none) ∧
      ¬ ∀ r, loadIcode twoPagesEnv 0 none [[97]] 0 (freePages 1) = .ok (0, r) → ∃ l, r = some l ∧
        ∀ i < (elfHeader twoPages).ePhnum, (progHeader twoPages i).pType = ELF_PT_LOAD →
          (progHeader twoPages i).InMemory twoPages 0 l.pages := by
  have hrun : loadIcode twoPagesEnv 0 none [[97]] 0 (freePages 1) = .ok (0, none) := by rfl
  refine ⟨hrun, fun h => ?_⟩
  obtain ⟨l, hl, -⟩ := h none hrun
  exact nomatch hl

end Ucore.Exec
