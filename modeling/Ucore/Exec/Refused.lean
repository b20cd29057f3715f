import Ucore.Exec.Model
import Ucore.Lib.Fallible

/-!
# A page that is refused

`load_icode_read` leaves 0 in `ret`.  When a later page of the segment is refused, `load_icode` cleans up
with this `ret`: it returns 0, and there is no address space (`loadIcode_zero_none_iff`).  No other
cleanup has 0.
-/

namespace Ucore.Exec

open Cow (State Perm E_NO_MEM)
open Fallible (bind_eq_ok bind_eq_error)
open Vmm (Uintptr mmMap)

section

variable (env : Env) (a : ℕ)

/-- A part of the segment, before which there were `n` reads, has been read; a page is asked for, and there
is none. -/
def Fill.Refused (n : ℕ) (perm : Perm) (x : Fill) : Prop :=
  n < x.reads ∧ ∃ s, pgdirAllocPage (env.answers x.allocs) a (pageOf x.la) perm x.pages = .ok (none, s)

/-- A loop comes to a turn with `bad`. -/
def Fill.Meets (bad : Fill → Prop) (turn : Fill → Except Stop Fill) (stop : Uintptr) : ℕ → Fill → Prop
  | 0, _ => False
  | n + 1, x => x.start < stop ∧ (bad x ∨ ∃ x', turn x = .ok x' ∧ Fill.Meets bad turn stop n x')

/-- A page is refused in one of the loops of a segment. -/
def FillRefused (ph : Proghdr) (s : Image) : Prop :=
  Fill.Meets (Fill.Refused env a s.reads (segPerm ph.pFlags))
      (Fill.readTurn env a (segPerm ph.pFlags) (ph.pVa + ph.pFilesz)) (ph.pVa + ph.pFilesz)
      ph.pFilesz.toNat (Fill.ofSegment ph s) ∨
    ∃ x, (Fill.loop (Fill.readTurn env a (segPerm ph.pFlags) (ph.pVa + ph.pFilesz))
        (ph.pVa + ph.pFilesz) ph.pFilesz.toNat (Fill.ofSegment ph s) >>=
        fun x => x.clearPartial (ph.pVa + ph.pMemsz)) = .ok x ∧
      Fill.Meets (Fill.Refused env a s.reads (segPerm ph.pFlags))
        (Fill.zeroTurn env a (segPerm ph.pFlags) (ph.pVa + ph.pMemsz)) (ph.pVa + ph.pMemsz)
        ph.pMemsz.toNat x

def SegmentRefused (ph : Proghdr) (s : Image) : Prop :=
  ph.pType = ELF_PT_LOAD ∧ ¬ ph.pFilesz > ph.pMemsz ∧ ph.pMemsz ≠ 0 ∧
    ∃ area mm, mmMap (env.vma s.vmas) s.mm ph.pVa ph.pMemsz (segVmFlags ph.pFlags) = .ok (0, area, mm) ∧
      FillRefused env a ph { s with mm := mm, vmas := s.vmas + 1 }

def SegmentsRefused (elf : Elfhdr) : ℕ → ℕ → Image → Prop
  | 0, _, _ => False
  | n + 1, i, s => ∃ bytes,
      loadIcodeRead (env.io s.reads) env.file sizeofProghdr (elf.phoff i).toInt = (0, bytes) ∧
      (SegmentRefused env a (decodeProghdr (fileAt bytes 0)) { s with reads := s.reads + 1 } ∨
        ∃ s', loadSegment env a (decodeProghdr (fileAt bytes 0)) { s with reads := s.reads + 1 } = .ok s' ∧
          SegmentsRefused elf n (i + 1) s')

/-- A segment is read in part, and the next page of it is refused. -/
def PageRefused (pages : State) : Prop :=
  env.mmCreate = true ∧ env.setupPgdir = true ∧
    ∃ bytes, loadIcodeRead (env.io 0) env.file sizeofElfhdr 0 = (0, bytes) ∧
      (decodeElfhdr (fileAt bytes 0)).eMagic = ELF_MAGIC ∧
      SegmentsRefused env a (decodeElfhdr (fileAt bytes 0)) (decodeElfhdr (fileAt bytes 0)).ePhnum 0
        ⟨⟨[], none, 0⟩, pages, 1, 0, 0, none⟩

end

variable {env : Env} {a : ℕ} {s : State} {perm : Perm} {ph : Proghdr} {x x' : Fill} {reads : ℕ} {stop : Uintptr}
  {image : Image} {elf : Elfhdr}

/-! ### When the result is 0 without an address space -/

theorem cleanup_inj {α : Type} {r r' : ℤ} :
    (Except.error (Stop.cleanup r) : Except Stop α) = .error (.cleanup r') ↔ r = r' := by
  rw [Except.error.injEq, Stop.cleanup.injEq]

/-- `ret` is 0 from the first read of the segment on. -/
structure Fill.Since (n : ℕ) (x : Fill) : Prop where
  le : n ≤ x.reads
  ret : x.ret = 0 ↔ n < x.reads

theorem Fill.since_ofSegment (ph : Proghdr) (image : Image) :
    (Fill.ofSegment ph image).Since image.reads :=
  ⟨le_rfl, iff_of_false (by decide : -E_NO_MEM ≠ 0) (lt_irrefl _)⟩

theorem Fill.Since.nextPage {r : Fill × ℕ × Uintptr × Uintptr} (h : x.Since reads)
    (hrun : x.nextPage env a perm stop = .ok r) : r.1.Since reads := by
  rw [Fill.nextPage] at hrun
  split at hrun
  · cases hrun
  · cases hrun
  · cases hrun
    exact ⟨h.le, h.ret⟩

theorem Fill.Since.readTurn (h : x.Since reads) (hrun : x.readTurn env a perm stop = .ok x') :
    x'.Since reads := by
  obtain ⟨⟨x₁, page, off, size⟩, hpage, hrun⟩ := bind_eq_ok.mp hrun
  have h₁ := h.nextPage hpage
  dsimp only at hrun
  split at hrun
  · cases hrun
  · rename_i hret
    cases hrun
    exact ⟨Nat.le_succ_of_le h₁.le, iff_of_true (not_not.mp hret) (Nat.lt_succ_of_le h₁.le)⟩

theorem Fill.Since.zeroTurn (h : x.Since reads) (hrun : x.zeroTurn env a perm stop = .ok x') :
    x'.Since reads := by
  obtain ⟨⟨x₁, page, off, size⟩, hpage, hrun⟩ := bind_eq_ok.mp hrun
  cases hrun
  have h₁ := h.nextPage hpage
  exact ⟨h₁.le, h₁.ret⟩

theorem Fill.Since.clearPartial (h : x.Since reads) (hrun : x.clearPartial stop = .ok x') :
    x'.Since reads := by
  have hsame : x'.reads = x.reads ∧ x'.ret = x.ret := by
    cases hpage : x.page with
    | none =>
      simp only [Fill.clearPartial, hpage] at hrun
      split_ifs at hrun
      all_goals
        cases hrun
        exact ⟨rfl, rfl⟩
    | some page =>
      simp only [Fill.clearPartial, hpage] at hrun
      split_ifs at hrun
      all_goals
        cases hrun
        exact ⟨rfl, rfl⟩
  refine ⟨?_, ?_⟩
  · rw [hsame.1]
    exact h.le
  · rw [hsame.1, hsame.2]
    exact h.ret

theorem Fill.Since.loop {turn : Fill → Except Stop Fill}
    (hturn : ∀ x x', x.Since reads → turn x = .ok x' → x'.Since reads) (n : ℕ) (h : x.Since reads)
    (hrun : Fill.loop turn stop n x = .ok x') : x'.Since reads := by
  induction n generalizing x with
  | zero =>
    rw [Fill.loop] at hrun
    split at hrun
    · cases hrun
    · cases hrun
      exact h
  | succ n ih =>
    rw [Fill.loop] at hrun
    split at hrun
    · obtain ⟨x₁, hstep, hrun⟩ := bind_eq_ok.mp hrun
      exact ih (hturn x x₁ h hstep) hrun
    · cases hrun
      exact h

theorem Fill.nextPage_zero_iff (h : x.Since reads) :
    x.nextPage env a perm stop = .error (.cleanup 0) ↔ x.Refused env a reads perm := by
  rw [Fill.nextPage, Fill.Refused, ← h.ret]
  cases halloc : pgdirAllocPage (env.answers x.allocs) a (pageOf x.la) perm x.pages with
  | error p =>
    refine iff_of_false (fun h => nomatch h) ?_
    rintro ⟨-, s, hs⟩
    exact nomatch hs
  | ok r =>
    obtain ⟨page, s⟩ := r
    cases page with
    | none =>
      dsimp only
      rw [cleanup_inj]
      constructor
      · intro hret
        exact ⟨hret, s, rfl⟩
      · exact And.left
    | some page =>
      refine iff_of_false (fun h => nomatch h) ?_
      rintro ⟨-, s', hs⟩
      exact nomatch hs

theorem Fill.readTurn_zero_iff (h : x.Since reads) :
    x.readTurn env a perm stop = .error (.cleanup 0) ↔ x.Refused env a reads perm := by
  rw [Fill.readTurn, bind_eq_error, Fill.nextPage_zero_iff h, or_iff_left_iff_imp]
  rintro ⟨⟨x', page, off, size⟩, -, herr⟩
  dsimp only at herr
  split at herr
  case isTrue hne => exact absurd (cleanup_inj.mp herr) hne
  case isFalse => exact nomatch herr

theorem Fill.zeroTurn_zero_iff (h : x.Since reads) :
    x.zeroTurn env a perm stop = .error (.cleanup 0) ↔ x.Refused env a reads perm := by
  rw [Fill.zeroTurn, bind_eq_error, Fill.nextPage_zero_iff h, or_iff_left_iff_imp]
  rintro ⟨⟨x', page, off, size⟩, -, herr⟩
  exact nomatch herr

theorem Fill.loop_zero_iff {bad : Fill → Prop} {turn : Fill → Except Stop Fill}
    (hturn : ∀ x, x.Since reads → (turn x = .error (.cleanup 0) ↔ bad x))
    (hkeep : ∀ x x', x.Since reads → turn x = .ok x' → x'.Since reads) (n : ℕ) (h : x.Since reads) :
    Fill.loop turn stop n x = .error (.cleanup 0) ↔ Fill.Meets bad turn stop n x := by
  induction n generalizing x with
  | zero =>
    rw [Fill.loop, Fill.Meets, iff_false]
    split
    case isTrue => exact fun h => nomatch h
    case isFalse => exact fun h => nomatch h
  | succ n ih =>
    rw [Fill.loop, Fill.Meets]
    by_cases hmore : x.start < stop
    · rw [if_pos hmore, bind_eq_error, hturn x h, and_iff_right hmore]
      refine or_congr_right (exists_congr fun x' => and_congr_right fun hstep => ?_)
      exact ih (hkeep x x' h hstep)
    · rw [if_neg hmore]
      exact iff_of_false (fun h => nomatch h) fun h => hmore h.1

theorem Fill.clearPartial_ne_cleanup (ret : ℤ) : x.clearPartial stop ≠ .error (.cleanup ret) := by
  intro h
  cases hpage : x.page with
  | none =>
    simp only [Fill.clearPartial, hpage] at h
    split_ifs at h
    all_goals exact nomatch h
  | some page =>
    simp only [Fill.clearPartial, hpage] at h
    split_ifs at h
    all_goals exact nomatch h

theorem fillSegment_zero_iff :
    fillSegment env a ph image = .error (.cleanup 0) ↔ FillRefused env a ph image := by
  have hstart := Fill.since_ofSegment ph image
  have hread : ∀ x x' : Fill, x.Since image.reads →
      x.readTurn env a (segPerm ph.pFlags) (ph.pVa + ph.pFilesz) = .ok x' → x'.Since image.reads :=
    fun x x' h => h.readTurn
  -- the loop that clears the rest starts from what the first one left
  have hzero : ∀ x₁ x₂ : Fill, Fill.loop (Fill.readTurn env a (segPerm ph.pFlags) (ph.pVa + ph.pFilesz))
      (ph.pVa + ph.pFilesz) ph.pFilesz.toNat (Fill.ofSegment ph image) = .ok x₁ →
      x₁.clearPartial (ph.pVa + ph.pMemsz) = .ok x₂ →
      (Fill.loop (Fill.zeroTurn env a (segPerm ph.pFlags) (ph.pVa + ph.pMemsz)) (ph.pVa + ph.pMemsz)
          ph.pMemsz.toNat x₂ = .error (.cleanup 0) ↔
        Fill.Meets (Fill.Refused env a image.reads (segPerm ph.pFlags))
          (Fill.zeroTurn env a (segPerm ph.pFlags) (ph.pVa + ph.pMemsz)) (ph.pVa + ph.pMemsz)
          ph.pMemsz.toNat x₂) := fun x₁ x₂ hloop hclear =>
    Fill.loop_zero_iff (fun x h => Fill.zeroTurn_zero_iff h) (fun x x' h => h.zeroTurn) _
      ((hstart.loop hread _ hloop).clearPartial hclear)
  rw [fillSegment, FillRefused, bind_eq_error,
    Fill.loop_zero_iff (fun x h => Fill.readTurn_zero_iff h) hread ph.pFilesz.toNat hstart]
  refine or_congr_right ?_
  constructor
  · rintro ⟨x₁, hloop, herr⟩
    rcases bind_eq_error.mp herr with herr | ⟨x₂, hclear, herr⟩
    · exact absurd herr (Fill.clearPartial_ne_cleanup 0)
    · rcases bind_eq_error.mp herr with herr | ⟨x₃, -, herr⟩
      · exact ⟨x₂, bind_eq_ok.mpr ⟨x₁, hloop, hclear⟩, (hzero x₁ x₂ hloop hclear).mp herr⟩
      · exact nomatch herr
  · rintro ⟨x₂, hok, hmeets⟩
    obtain ⟨x₁, hloop, hclear⟩ := bind_eq_ok.mp hok
    refine ⟨x₁, hloop, bind_eq_error.mpr (Or.inr ⟨x₂, hclear, bind_eq_error.mpr (Or.inl ?_)⟩)⟩
    exact (hzero x₁ x₂ hloop hclear).mpr hmeets

theorem loadSegment_zero_iff :
    loadSegment env a ph image = .error (.cleanup 0) ↔ SegmentRefused env a ph image := by
  rw [loadSegment, SegmentRefused]
  by_cases htype : ph.pType ≠ ELF_PT_LOAD
  · rw [if_pos htype]
    exact iff_of_false (fun h => nomatch h) fun h => htype h.1
  rw [if_neg htype]
  by_cases hsize : ph.pFilesz > ph.pMemsz
  · rw [if_pos hsize]
    exact iff_of_false (fun h => absurd (cleanup_inj.mp h) (by decide)) fun h => h.2.1 hsize
  rw [if_neg hsize]
  by_cases hempty : ph.pMemsz = 0
  · rw [if_pos hempty]
    exact iff_of_false (fun h => nomatch h) fun h => h.2.2.1 hempty
  rw [if_neg hempty, and_iff_right (not_not.mp htype), and_iff_right hsize, and_iff_right hempty]
  cases hmap : mmMap (env.vma image.vmas) image.mm ph.pVa ph.pMemsz (segVmFlags ph.pFlags) with
  | error p =>
    refine iff_of_false (fun h => nomatch h) ?_
    rintro ⟨area, mm, heq, -⟩
    exact nomatch heq
  | ok r =>
    obtain ⟨ret, area, mm⟩ := r
    dsimp only
    by_cases hret : ret ≠ 0
    · rw [if_pos hret]
      constructor
      · intro h
        cases h
        exact absurd rfl hret
      · rintro ⟨area', mm', heq, -⟩
        cases heq
        exact absurd rfl hret
    · rw [if_neg hret, fillSegment_zero_iff]
      rw [not_not] at hret
      subst hret
      constructor
      · intro h
        exact ⟨area, mm, rfl, h⟩
      · rintro ⟨area', mm', heq, h⟩
        cases heq
        exact h

theorem loadSegments_zero_iff (n i : ℕ) (image : Image) :
    loadSegments env a elf n i image = .error (.cleanup 0) ↔ SegmentsRefused env a elf n i image := by
  induction n generalizing i image with
  | zero => exact iff_of_false (fun h => nomatch h) id
  | succ n ih =>
    rw [loadSegments, SegmentsRefused]
    obtain ⟨⟨ret, bytes⟩, hread⟩ : ∃ r,
        loadIcodeRead (env.io image.reads) env.file sizeofProghdr (elf.phoff i).toInt = r := ⟨_, rfl⟩
    simp only [hread]
    by_cases hret : ret ≠ 0
    · rw [if_pos hret]
      constructor
      · intro h
        cases h
        exact absurd rfl hret
      · rintro ⟨bytes', heq, -⟩
        cases heq
        exact absurd rfl hret
    · rw [if_neg hret, bind_eq_error, loadSegment_zero_iff]
      rw [not_not] at hret
      subst hret
      simp only [ih]
      constructor
      · intro h
        exact ⟨bytes, rfl, h⟩
      · rintro ⟨bytes', heq, h⟩
        cases heq
        exact h

theorem copyToUserLoop_error {bytes : List UInt8} {ret : ℤ} (n : ℕ) (dst : Uintptr) :
    copyToUserLoop a n dst bytes s = .error ret → ret = -E_NO_MEM := by
  induction n generalizing dst bytes s with
  | zero => exact fun h => nomatch h
  | succ n ih =>
    intro h
    rw [copyToUserLoop] at h
    split at h
    case isTrue => exact nomatch h
    case isFalse =>
      cases hpte : Cow.getPte false false a (pageOf dst) s with
      | none =>
        rw [hpte] at h
        cases h
        rfl
      | some s₁ =>
        rw [hpte] at h
        dsimp only at h
        split at h
        case isTrue =>
          cases h
          rfl
        case isFalse => exact ih _ h

theorem pushStrings_error {ret : ℤ} (args : List (List UInt8)) (sp : Uintptr) (uargv : List Uintptr) :
    pushStrings a args sp uargv s = .error ret → ret = -E_NO_MEM := by
  induction args generalizing sp uargv s with
  | nil => exact fun h => nomatch h
  | cons arg args ih =>
    intro h
    rw [pushStrings] at h
    split at h
    case isTrue =>
      cases h
      rfl
    case isFalse =>
      rcases bind_eq_error.mp h with herr | ⟨s₁, -, herr⟩
      · exact copyToUserLoop_error _ _ herr
      · exact ih _ _ herr

theorem pushWords_error {ret : ℤ} (ws : List Uintptr) (sp : Uintptr) :
    pushWords a ws sp s = .error ret → ret = -E_NO_MEM := by
  induction ws generalizing sp s with
  | nil => exact fun h => nomatch h
  | cons w ws ih =>
    intro h
    rcases bind_eq_error.mp h with herr | ⟨s₁, -, herr⟩
    · exact copyToUserLoop_error _ _ herr
    · exact ih _ herr

theorem pushArgv_error {ret : ℤ} {kargv : List (List UInt8)} (h : pushArgv a kargv s = .error ret) :
    ret = -E_NO_MEM := by
  rcases bind_eq_error.mp h with herr | ⟨⟨sp, uargv, s₁⟩, -, herr⟩
  · exact pushStrings_error _ _ _ herr
  · exact pushWords_error _ _ herr

theorem stackPages_ne_cleanup {ret : ℤ} (n i : ℕ) (image : Image) :
    stackPages env a n i image ≠ .error (.cleanup ret) := by
  induction n generalizing i image with
  | zero => exact fun h => nomatch h
  | succ n ih =>
    intro h
    rw [stackPages] at h
    split at h
    · exact nomatch h
    · exact nomatch h
    · exact ih _ _ h

theorem loadStack_ne_zero {kargv : List (List UInt8)} {sstatus : Uintptr} :
    loadStack env a elf kargv sstatus image ≠ .error (.cleanup 0) := by
  intro h
  rw [loadStack] at h
  split at h
  case h_1 => exact nomatch h
  case h_2 ret area mm _ =>
    split at h
    case isTrue hret => exact hret (cleanup_inj.mp h)
    case isFalse =>
      rcases bind_eq_error.mp h with herr | ⟨s₁, -, herr⟩
      · exact stackPages_ne_cleanup _ _ _ herr
      · split at herr
        case h_1 ret hargv =>
          rw [cleanup_inj.mp herr] at hargv
          exact absurd (pushArgv_error hargv) (by decide)
        case h_2 => exact nomatch herr

theorem buildImage_zero_iff {kargv : List (List UInt8)} {sstatus : Uintptr} :
    buildImage env a kargv sstatus s = .error (.cleanup 0) ↔
      ∃ bytes, loadIcodeRead (env.io 0) env.file sizeofElfhdr 0 = (0, bytes) ∧
        (decodeElfhdr (fileAt bytes 0)).eMagic = ELF_MAGIC ∧
        SegmentsRefused env a (decodeElfhdr (fileAt bytes 0)) (decodeElfhdr (fileAt bytes 0)).ePhnum 0
          ⟨⟨[], none, 0⟩, s, 1, 0, 0, none⟩ := by
  rw [buildImage]
  obtain ⟨⟨ret, bytes⟩, hread⟩ : ∃ r, loadIcodeRead (env.io 0) env.file sizeofElfhdr 0 = r := ⟨_, rfl⟩
  simp only [hread]
  by_cases hret : ret ≠ 0
  · rw [if_pos hret, cleanup_inj]
    refine iff_of_false hret ?_
    rintro ⟨bytes', heq, -⟩
    cases heq
    exact hret rfl
  rw [if_neg hret]
  rw [not_not] at hret
  subst hret
  by_cases hmagic : (decodeElfhdr (fileAt bytes 0)).eMagic ≠ ELF_MAGIC
  · rw [if_pos hmagic, cleanup_inj]
    refine iff_of_false (by decide) ?_
    rintro ⟨bytes', heq, hm, -⟩
    cases heq
    exact hmagic hm
  rw [if_neg hmagic, bind_eq_error, loadSegments_zero_iff]
  rw [not_not] at hmagic
  constructor
  · rintro (h | ⟨image, -, herr⟩)
    · exact ⟨bytes, rfl, hmagic, h⟩
    · exact absurd herr loadStack_ne_zero
  · rintro ⟨bytes', heq, -, h⟩
    cases heq
    exact Or.inl h

/-- **The result is 0 without an address space** when a segment is read in part and a page is refused. -/
theorem loadIcode_zero_none_iff (kargv : List (List UInt8)) (sstatus : Uintptr) :
    loadIcode env a none kargv sstatus s = .ok (0, none) ↔ PageRefused env a s := by
  have hnomem : (Except.ok (-E_NO_MEM, none) : Except Panic (ℤ × Option Loaded)) ≠ .ok (0, none) :=
    fun h => absurd (Prod.mk.inj (Except.ok.inj h)).1 (by decide)
  rw [loadIcode, PageRefused, if_neg (not_not.mpr rfl)]
  by_cases hmm : env.mmCreate = false
  · rw [if_pos hmm]
    exact iff_of_false hnomem fun h => Bool.false_ne_true (hmm.symm.trans h.1)
  by_cases hpgdir : env.setupPgdir = false
  · rw [if_neg hmm, if_pos hpgdir]
    exact iff_of_false hnomem fun h => Bool.false_ne_true (hpgdir.symm.trans h.2.1)
  rw [if_neg hmm, if_neg hpgdir, and_iff_right (Bool.eq_true_of_not_eq_false hmm),
    and_iff_right (Bool.eq_true_of_not_eq_false hpgdir), ← buildImage_zero_iff]
  cases buildImage env a kargv sstatus s with
  | ok loaded => exact iff_of_false (fun h => nomatch h) fun h => nomatch h
  | error stop =>
    cases stop with
    | panic p => exact iff_of_false (fun h => nomatch h) fun h => nomatch h
    | cleanup ret =>
      rw [cleanup_inj]
      constructor
      · intro h
        exact (Prod.mk.inj (Except.ok.inj h)).1
      · rintro rfl
        rfl

end Ucore.Exec
