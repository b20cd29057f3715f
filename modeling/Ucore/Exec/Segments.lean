import Ucore.Exec.Pages
import Ucore.Vmm.Map

/-!
# The segments of a program

The two loops of a segment go from page to page, and `start`, `la` and `end` say how far they are.
`Fill.At` is the invariant of both: the bytes up to `start` are those of the segment, and the pages up to
`la` have its permissions.  A turn needs it where `start` is in the page of `la`, which the part between
the loops sees to.
-/

namespace Ucore.Exec

open Cow (State Perm PTE_V PTE_R PTE_W PTE_X PTE_U Answers Bytes has putPage userByte mapping view)
open Vmm (Uintptr PGSIZE roundDown toNat_roundDown)

/-- The byte of a segment at an address: of the file, or zero. -/
def Proghdr.byte (ph : Proghdr) (file : List UInt8) (x : ℕ) : UInt8 :=
  if x < ph.pVa.toNat + ph.pFilesz.toNat then file.getD (ph.pOffset.toNat + (x - ph.pVa.toNat)) 0 else 0

/-- Only pages in `[lo, hi)` of `a` change. -/
structure Keeps (s s' : State) (a lo hi : ℕ) : Prop where
  pte : ∀ b q, ¬ (b = a ∧ lo ≤ q ∧ q < hi) → s'.pte b q = s.pte b q
  view : ∀ b q, ¬ (b = a ∧ lo ≤ q ∧ q < hi) → view s' (b, q) = view s (b, q)

variable {env : Env} {pool : Set ℕ} {a p f lo hi : ℕ} {s s' s'' s₀ : State} {perm : Perm} {d : Bytes}
  {off : ℕ} {bytes : List UInt8} {ph : Proghdr} {x x' : Fill} {stop : Uintptr}

theorem Keeps.refl (s : State) (a lo hi : ℕ) : Keeps s s a lo hi := ⟨fun _ _ _ => rfl, fun _ _ _ => rfl⟩

theorem Keeps.trans {lo' hi' : ℕ} (h : Keeps s s' a lo hi) (h' : Keeps s' s'' a lo' hi') :
    Keeps s s'' a (min lo lo') (max hi hi') := by
  refine ⟨fun b q hq => ?_, fun b q hq => ?_⟩
  · rw [h'.pte b q (by omega), h.pte b q (by omega)]
  · rw [h'.view b q (by omega), h.view b q (by omega)]

theorem Puts.keeps {fl : Perm} (h : Puts s s' a p fl d) : Keeps s s' a p (p + 1) := by
  have hne : ∀ b q, ¬ (b = a ∧ p ≤ q ∧ q < p + 1) → (b, q) ≠ (a, p) := by
    intro b q hq heq
    cases heq
    omega
  refine ⟨fun b q hq => h.others b q (hne b q hq), fun b q hq => ?_⟩
  rw [h.view, Function.update_of_ne (hne b q hq)]

theorem Keeps.userByte {y : ℕ} (h : Keeps s s' a lo hi) (hy : ¬ (lo ≤ y / 4096 ∧ y / 4096 < hi)) :
    userByte s' a y = userByte s a y := by
  rw [Cow.userByte, Cow.userByte, h.view a _ (by omega)]

theorem Keeps.mapping {q : ℕ} (h : Keeps s s' a lo hi) (hq : ¬ (lo ≤ q ∧ q < hi)) :
    mapping s' (a, q) = mapping s (a, q) := by
  rw [Cow.mapping, Cow.mapping, h.pte a q (by omega)]

/-! ### A turn -/

theorem segPerm_valid (pFlags : BitVec 32) : PTE_V ||| segPerm pFlags = segPerm pFlags := by
  have hor : ∀ p q : Perm, PTE_V ||| p = p → PTE_V ||| (p ||| q) = p ||| q := fun p q hp => by
    rw [← BitVec.or_assoc, hp]
  have hif : ∀ (c : Prop) [Decidable c] (p q : Perm), PTE_V ||| p = p →
      PTE_V ||| (if c then p ||| q else p) = if c then p ||| q else p := by
    intro c _ p q hp
    split
    · exact hor p q hp
    · exact hp
  exact hif _ _ _ (hif _ _ _ (hif _ _ _ (by decide)))

/-- A page can be written if the segment can, and read if it can be read or written. -/
theorem has_segPerm (pFlags : BitVec 32) :
    has (segPerm pFlags) PTE_V = true ∧ has (segPerm pFlags) PTE_U = true ∧
      (has (segPerm pFlags) PTE_X = true ↔ pFlags &&& ELF_PF_X ≠ 0) ∧
      (has (segPerm pFlags) PTE_W = true ↔ pFlags &&& ELF_PF_W ≠ 0) ∧
      (has (segPerm pFlags) PTE_R = true ↔ pFlags &&& ELF_PF_R ≠ 0 ∨ pFlags &&& ELF_PF_W ≠ 0) := by
  have hbool : ∀ (c : Prop) [Decidable c], ∃ b : Bool, c ↔ b = true :=
    fun c _ => ⟨decide c, decide_eq_true_iff.symm⟩
  obtain ⟨x, hx⟩ := hbool (pFlags &&& ELF_PF_X ≠ 0)
  obtain ⟨w, hw⟩ := hbool (pFlags &&& ELF_PF_W ≠ 0)
  obtain ⟨r, hr⟩ := hbool (pFlags &&& ELF_PF_R ≠ 0)
  simp only [segPerm, hx, hw, hr]
  clear hx hw hr
  revert x w r
  decide

/-- The page that a turn begins with. -/
theorem Fill.nextPage_spec (env : Env) (h : Own pool a x.pages) (hperm : PTE_V ||| perm = perm)
    (hle : x.la.toNat ≤ x.start.toNat) (hlt : x.start.toNat < x.la.toNat + 4096)
    (hstop : x.start < stop) (hbound : x.la.toNat < 2 ^ 38) :
    x.nextPage env a perm stop = .error (.cleanup x.ret) ∨
    ∃ page s' off size, x.nextPage env a perm stop =
        .ok ({ x with pages := s', allocs := x.allocs + 1, page := some page, la := x.la + PGSIZE },
          page, off, size) ∧
      off.toNat = x.start.toNat - x.la.toNat ∧
      size.toNat = min stop.toNat (x.la.toNat + 4096) - x.start.toNat ∧
      (x.la + PGSIZE).toNat = x.la.toNat + 4096 ∧ (x.start + size).toNat = x.start.toNat + size.toNat ∧
      Own pool a s' ∧ mapping s' (a, x.la.toNat / 4096) = some page ∧
      ∃ d, Puts x.pages s' a (x.la.toNat / 4096) perm d := by
  have hpage : pageOf x.la = x.la.toNat / 4096 := pageOf_eq (by omega)
  rw [Fill.nextPage, hpage]
  rcases pgdirAllocPage_spec h (env.answers x.allocs) (x.la.toNat / 4096) hperm with
    hnone | ⟨page, s', hsome, hown, hmap, hputs⟩
  · rw [hnone]
    exact Or.inl rfl
  · rw [hsome]
    have hla : (x.la + PGSIZE).toNat = x.la.toNat + 4096 := by
      rw [PGSIZE]
      bv_omega
    have hoff : (x.start - x.la).toNat = x.start.toNat - x.la.toNat := BitVec.toNat_sub_of_le hle
    have hsize : (if stop < x.la + PGSIZE then PGSIZE - (x.start - x.la) - (x.la + PGSIZE - stop)
        else PGSIZE - (x.start - x.la)).toNat = min stop.toNat (x.la.toNat + 4096) - x.start.toNat := by
      rw [BitVec.lt_def] at hstop
      split
      case isTrue hcut =>
        rw [BitVec.lt_def, hla] at hcut
        rw [PGSIZE] at *
        bv_omega
      case isFalse hcut =>
        rw [BitVec.lt_def, hla] at hcut
        rw [PGSIZE] at *
        bv_omega
    refine Or.inr ⟨page, s', _, _, rfl, hoff, hsize, hla, ?_, hown, hmap, hputs⟩
    rw [BitVec.toNat_add, hsize, Nat.mod_eq_of_lt (by omega)]

/-- **`load_icode_read`** that returns 0 has read all bytes. -/
theorem loadIcodeRead_ok {io : Io} {file : List UInt8} {len : ℕ} {offset : ℤ} {bytes : List UInt8}
    (h : loadIcodeRead io file len offset = (0, bytes)) :
    0 ≤ offset ∧ bytes.length = len ∧
      ∀ i < len, offset.toNat + i < file.length ∧ bytes.getD i 0 = file.getD (offset.toNat + i) 0 := by
  rw [loadIcodeRead] at h
  by_cases hseek : sysfileSeek io offset ≠ 0
  · rw [if_pos hseek] at h
    exact absurd (Prod.mk.inj h).1 hseek
  rw [if_neg hseek, sysfileRead] at h
  have hoffset : 0 ≤ offset := by
    by_contra hneg
    rw [sysfileSeek, if_pos (not_le.mp hneg)] at hseek
    exact hseek (by decide)
  cases hread : io.read with
  | error ret =>
    have hlt : (ret : ℤ) < 0 := ret.2
    simp only [hread] at h
    rw [if_pos (by omega), if_pos hlt] at h
    have hzero : (ret : ℤ) = 0 := (Prod.mk.inj h).1
    omega
  | ok limit =>
    simp only [hread] at h
    split at h
    case isTrue =>
      have hneg : ¬ ((((file.drop offset.toNat).take len).take limit).length : ℤ) < 0 := by omega
      rw [if_neg hneg] at h
      exact absurd (Prod.mk.inj h).1 (by decide)
    case isFalse hlen =>
      obtain rfl := (Prod.mk.inj h).2
      rw [not_not, Nat.cast_inj] at hlen
      refine ⟨hoffset, hlen, fun i hi => ?_⟩
      rw [List.take_take] at hlen ⊢
      have hall := hlen
      rw [List.length_take, List.length_drop] at hall
      refine ⟨by omega, ?_⟩
      rw [List.getD_eq_getElem _ _ (by omega), List.getElem_take, List.getElem_drop,
        List.getD_eq_getElem _ _ (by omega)]

/-- What a turn does: the rest of the page, or up to `stop`, is filled with these bytes. -/
structure Fill.Turned (pool : Set ℕ) (a : ℕ) (perm : Perm) (stop : Uintptr) (x : Fill)
    (content : ℕ → UInt8) (x' : Fill) : Prop where
  own : Own pool a x'.pages
  start : x'.start.toNat = min stop.toNat (x.la.toNat + 4096)
  la : x'.la.toNat = x.la.toNat + 4096
  keeps : Keeps x.pages x'.pages a (x.la.toNat / 4096) (x.la.toNat / 4096 + 1)
  flags : (x'.pages.pte a (x.la.toNat / 4096)).flags = perm
  bytes : ∀ y, x.start.toNat ≤ y → y < x'.start.toNat → userByte x'.pages a y = some (content y)
  page : ∃ f, x'.page = some f ∧ mapping x'.pages (a, x.la.toNat / 4096) = some f
  mm : x'.mm = x.mm ∧ x'.vmas = x.vmas

theorem Fill.Turned.congr {c c' : ℕ → UInt8} (h : x.Turned pool a perm stop c x')
    (hc : ∀ y, x.start.toNat ≤ y → y < x'.start.toNat → c y = c' y) : x.Turned pool a perm stop c' x' :=
  { h with bytes := fun y hlo hhi => (h.bytes y hlo hhi).trans (congrArg some (hc y hlo hhi)) }

/-- A page is allocated, and bytes are stored into it. -/
theorem Fill.turned_putPage {page : ℕ} (x' : Fill) (stop : Uintptr) (hle : x.la.toNat ≤ x.start.toNat)
    (haligned : x.la.toNat % 4096 = 0) (hoff : off = x.start.toNat - x.la.toNat)
    (hsize : bytes.length = min stop.toNat (x.la.toNat + 4096) - x.start.toNat)
    (hlt : x.start.toNat < min stop.toNat (x.la.toNat + 4096))
    (hown : Own pool a s') (hmap : mapping s' (a, x.la.toNat / 4096) = some page)
    (hputs : Puts x.pages s' a (x.la.toNat / 4096) perm d)
    (hstart : x'.start.toNat = x.start.toNat + bytes.length) (hla : x'.la.toNat = x.la.toNat + 4096)
    (hpages : x'.pages = putPage page off bytes s') (hpage : x'.page = some page)
    (hmm : x'.mm = x.mm ∧ x'.vmas = x.vmas) :
    x.Turned pool a perm stop (fun y => bytes.getD (y - x.start.toNat) 0) x' := by
  obtain ⟨hown', hmapping, hputs'⟩ := putPage_spec hown hmap off bytes
  obtain ⟨-, hst⟩ := hown.putPage hmap off (by omega : off + bytes.length ≤ 4096)
  have hbase : 4096 * (x.la.toNat / 4096) + off = x.start.toNat := by omega
  rw [hbase] at hst
  refine ⟨hpages ▸ hown', by omega, hla, ?_, ?_, fun y hlo hhi => ?_, ⟨page, hpage, ?_⟩, hmm⟩
  · rw [hpages]
    exact (hputs.trans hputs').keeps
  · rw [hpages, hputs'.flags, hputs.flags]
  · have hin := hst.inside (y - x.start.toNat) (by omega)
    rw [Nat.add_sub_cancel' hlo] at hin
    rw [hpages, hin, List.getD_eq_getElem _ _ (by omega)]
  · rw [hpages, hmapping, hmap]

theorem Fill.readTurn_spec (h : Own pool a x.pages) (hperm : PTE_V ||| perm = perm)
    (hle : x.la.toNat ≤ x.start.toNat) (hlt : x.start.toNat < x.la.toNat + 4096)
    (haligned : x.la.toNat % 4096 = 0) (hstop : x.start < stop) (hbound : x.la.toNat < 2 ^ 38) :
    (∃ ret, x.readTurn env a perm stop = .error (.cleanup ret)) ∨
    ∃ x', x.readTurn env a perm stop = .ok x' ∧ 0 ≤ x.filepos ∧
      x.filepos.toNat + (x'.start.toNat - x.start.toNat) ≤ env.file.length ∧
      x'.filepos = x.filepos + ((x'.start.toNat - x.start.toNat : ℕ) : ℤ) ∧
      x.Turned pool a perm stop (fun y => env.file.getD (x.filepos.toNat + (y - x.start.toNat)) 0) x' := by
  rw [Fill.readTurn]
  rcases Fill.nextPage_spec env h hperm hle hlt hstop hbound with
    herr | ⟨page, s', off, size, hnext, hoff, hsize, hla, hadd, hown, hmap, d, hputs⟩
  · rw [herr]
    exact Or.inl ⟨x.ret, rfl⟩
  obtain ⟨⟨ret, bytes⟩, hread⟩ : ∃ r, loadIcodeRead (env.io x.reads) env.file size.toNat x.filepos = r :=
    ⟨_, rfl⟩
  simp only [hnext, bind, Except.bind, hread]
  by_cases hret : ret = 0
  swap
  · exact Or.inl ⟨ret, if_pos hret⟩
  subst hret
  obtain ⟨hnonneg, hlen, hbytes⟩ := loadIcodeRead_ok hread
  rw [BitVec.lt_def] at hstop
  refine Or.inr ⟨_, if_neg (not_not.mpr rfl), hnonneg, ?_, ?_, ?_⟩
  · have hlast := (hbytes (size.toNat - 1) (by omega)).1
    show _ + ((x.start + size).toNat - x.start.toNat) ≤ _
    omega
  · show _ = x.filepos + (((x.start + size).toNat - x.start.toNat : ℕ) : ℤ)
    rw [hadd, Nat.add_sub_cancel_left]
  · have hturned := Fill.turned_putPage
      { x with
        pages := putPage page off.toNat bytes s', allocs := x.allocs + 1, page := some page
        la := x.la + PGSIZE, reads := x.reads + 1, ret := 0, start := x.start + size
        filepos := x.filepos + size.toNat }
      stop hle haligned hoff (hlen.trans hsize) (by omega) hown hmap hputs
      (by rw [hadd, hlen]) hla rfl rfl ⟨rfl, rfl⟩
    refine hturned.congr fun y hlo hhi => (hbytes _ ?_).2
    rw [show (x.start + size).toNat = _ from hadd] at hhi
    omega

theorem Fill.zeroTurn_spec (h : Own pool a x.pages) (hperm : PTE_V ||| perm = perm)
    (hle : x.la.toNat ≤ x.start.toNat) (hlt : x.start.toNat < x.la.toNat + 4096)
    (haligned : x.la.toNat % 4096 = 0) (hstop : x.start < stop) (hbound : x.la.toNat < 2 ^ 38) :
    (∃ ret, x.zeroTurn env a perm stop = .error (.cleanup ret)) ∨
    ∃ x', x.zeroTurn env a perm stop = .ok x' ∧ x.Turned pool a perm stop (fun _ => 0) x' := by
  rw [Fill.zeroTurn]
  rcases Fill.nextPage_spec env h hperm hle hlt hstop hbound with
    herr | ⟨page, s', off, size, hnext, hoff, hsize, hla, hadd, hown, hmap, d, hputs⟩
  · rw [herr]
    exact Or.inl ⟨x.ret, rfl⟩
  rw [hnext]
  have hlen : (List.replicate size.toNat (0 : UInt8)).length = size.toNat := List.length_replicate
  rw [BitVec.lt_def] at hstop
  refine Or.inr ⟨_, rfl, ?_⟩
  have hturned := Fill.turned_putPage
    { x with
      pages := putPage page off.toNat (List.replicate size.toNat 0) s', allocs := x.allocs + 1
      page := some page, la := x.la + PGSIZE, start := x.start + size }
    stop hle haligned hoff (hlen.trans hsize) (by omega) hown hmap hputs
    (by rw [hadd, hlen]) hla rfl rfl ⟨rfl, rfl⟩
  refine hturned.congr fun y hlo hhi => ?_
  rw [show (x.start + size).toNat = _ from hadd] at hhi
  rw [List.getD_eq_getElem _ _ (by omega), List.getElem_replicate]

/-! ### The loops -/

/-- **The rule for the loops**: a turn keeps `P` and goes on. -/
theorem Fill.loop_spec {P : Fill → Prop} {turn : Fill → Except Stop Fill}
    (hturn : ∀ x, P x → x.start < stop → (∃ ret, turn x = .error (.cleanup ret)) ∨
      ∃ x', turn x = .ok x' ∧ P x' ∧ x.start.toNat < x'.start.toNat)
    (n : ℕ) (h : P x) (hn : stop.toNat - x.start.toNat ≤ n) :
    (∃ ret, Fill.loop turn stop n x = .error (.cleanup ret)) ∨
      ∃ x', Fill.loop turn stop n x = .ok x' ∧ P x' ∧ stop.toNat ≤ x'.start.toNat := by
  induction n generalizing x with
  | zero =>
    have hdone : ¬ x.start < stop := by
      rw [BitVec.lt_def]
      omega
    rw [Fill.loop, if_neg hdone]
    exact Or.inr ⟨x, rfl, h, by omega⟩
  | succ n ih =>
    rw [Fill.loop]
    by_cases hmore : x.start < stop
    · rw [if_pos hmore]
      rw [BitVec.lt_def] at hmore
      rcases hturn x h hmore with ⟨ret, herr⟩ | ⟨x', hok, h', hlt⟩
      · rw [herr]
        exact Or.inl ⟨ret, rfl⟩
      · rw [hok]
        exact ih h' (by omega)
    · rw [if_neg hmore]
      rw [BitVec.lt_def] at hmore
      exact Or.inr ⟨x, rfl, h, not_lt.mp hmore⟩

/-- The variables of the loops, and what is in the pages from the beginning of the segment on. -/
structure Fill.At (pool : Set ℕ) (a : ℕ) (file : List UInt8) (ph : Proghdr) (s₀ : State) (stop : Uintptr)
    (x : Fill) : Prop where
  own : Own pool a x.pages
  aligned : x.la.toNat % 4096 = 0
  va_le : ph.pVa.toNat ≤ x.start.toNat
  le_stop : x.start.toNat ≤ stop.toNat
  base_le : ph.pVa.toNat / 4096 ≤ x.la.toNat / 4096
  la_lt : x.la.toNat < x.start.toNat + 4096
  start_lt : x.start.toNat < x.la.toNat + 4096
  before : x.start.toNat < stop.toNat → x.la.toNat ≤ x.start.toNat
  after : ph.pVa.toNat < x.start.toNat → x.start.toNat ≤ x.la.toNat
  bytes : ∀ y, ph.pVa.toNat ≤ y → y < x.start.toNat → userByte x.pages a y = some (ph.byte file y)
  flags : ∀ p, ph.pVa.toNat / 4096 ≤ p → p < x.la.toNat / 4096 →
    (x.pages.pte a p).flags = segPerm ph.pFlags
  keeps : Keeps s₀ x.pages a (ph.pVa.toNat / 4096) (x.la.toNat / 4096)
  page : x.start.toNat < x.la.toNat →
    ∃ f, x.page = some f ∧ mapping x.pages (a, x.la.toNat / 4096 - 1) = some f

theorem Fill.At.turned {file : List UInt8} {content : ℕ → UInt8} (h : x.At pool a file ph s₀ stop)
    (hmore : x.start.toNat < stop.toNat) (ht : x.Turned pool a (segPerm ph.pFlags) stop content x')
    (hcontent : ∀ y, x.start.toNat ≤ y → y < x'.start.toNat → content y = ph.byte file y) :
    x'.At pool a file ph s₀ stop ∧ x.start.toNat < x'.start.toNat := by
  have hbefore := h.before hmore
  have hstart := ht.start
  have hla := ht.la
  have hlt := h.start_lt
  have haligned := h.aligned
  have hva := h.va_le
  have hbase := h.base_le
  refine ⟨⟨ht.own, by omega, by omega, by omega, by omega, by omega, by omega, by omega, by omega,
    fun y hlo hhi => ?_, fun p hlo hhi => ?_, ?_, fun _ => ?_⟩, by omega⟩
  · by_cases hy : y < x.start.toNat
    · have hafter := h.after (by omega)
      rw [ht.keeps.userByte (by omega)]
      exact h.bytes y hlo hy
    · rw [ht.bytes y (not_lt.mp hy) hhi, hcontent y (not_lt.mp hy) hhi]
  · by_cases hp : p = x.la.toNat / 4096
    · rw [hp, ht.flags]
    · rw [ht.keeps.pte a p (by omega)]
      exact h.flags p hlo (by omega)
  · have hkeeps := h.keeps.trans ht.keeps
    rw [Nat.min_eq_left hbase, Nat.max_eq_right (Nat.le_succ _)] at hkeeps
    rw [show x'.la.toNat / 4096 = x.la.toNat / 4096 + 1 by omega]
    exact hkeeps
  · rw [show x'.la.toNat / 4096 - 1 = x.la.toNat / 4096 by omega]
    exact ht.page

/-- **Between the loops**: the assertion on `start` and `end` holds. -/
theorem Fill.clearPartial_spec {file : List UInt8} (stop' : Uintptr) (h : x.At pool a file ph s₀ stop)
    (hdone : stop.toNat ≤ x.start.toNat) (hstop : stop.toNat ≤ stop'.toNat)
    (hbound : stop'.toNat < 2 ^ 38)
    (hzero : ∀ y, stop.toNat ≤ y → ph.byte file y = 0) :
    ∃ x', x.clearPartial stop' = .ok x' ∧ x'.At pool a file ph s₀ stop' ∧
      x.start.toNat ≤ x'.start.toNat := by
  have hle := h.le_stop
  rw [Fill.clearPartial]
  by_cases hla : x.start < x.la
  swap
  · rw [if_neg hla]
    rw [BitVec.lt_def] at hla
    exact ⟨x, rfl, { h with le_stop := by omega, before := fun _ => not_lt.mp hla }, le_rfl⟩
  rw [if_pos hla]
  rw [BitVec.lt_def] at hla
  by_cases heq : x.start = stop'
  · rw [if_pos heq]
    exact ⟨x, rfl, { h with
      le_stop := (congrArg BitVec.toNat heq).le, before := fun hlt => absurd heq (by bv_omega) }, le_rfl⟩
  rw [if_neg heq]
  have hne : x.start.toNat ≠ stop'.toNat := fun he => heq (BitVec.eq_of_toNat_eq he)
  have haligned := h.aligned
  have hla_lt := h.la_lt
  have hva := h.va_le
  obtain ⟨off, hoff⟩ : ∃ off, off = x.start + PGSIZE - x.la := ⟨_, rfl⟩
  have hoff' : off.toNat = x.start.toNat + 4096 - x.la.toNat := by
    rw [hoff, PGSIZE]
    bv_omega
  obtain ⟨size, hsize⟩ : ∃ size : Uintptr,
      size = if stop' < x.la then PGSIZE - off - (x.la - stop') else PGSIZE - off := ⟨_, rfl⟩
  have hsize' : size.toNat = min stop'.toNat x.la.toNat - x.start.toNat := by
    rw [hsize]
    split
    case isTrue hcut =>
      rw [BitVec.lt_def] at hcut
      rw [PGSIZE]
      bv_omega
    case isFalse hcut =>
      rw [BitVec.lt_def] at hcut
      rw [PGSIZE]
      bv_omega
  obtain ⟨page, hpage, hmap⟩ := h.page hla
  simp only [← hoff, ← hsize, hpage]
  have hadd : (x.start + size).toNat = min stop'.toNat x.la.toNat := by
    rw [BitVec.toNat_add, Nat.mod_eq_of_lt (by omega)]
    omega
  have hassert : (stop' < x.la ∧ x.start + size = stop') ∨ (stop' ≥ x.la ∧ x.start + size = x.la) := by
    by_cases hcut : stop'.toNat < x.la.toNat
    · exact Or.inl ⟨hcut, BitVec.eq_of_toNat_eq (by omega)⟩
    · exact Or.inr ⟨not_lt.mp hcut, BitVec.eq_of_toNat_eq (by omega)⟩
  rw [if_neg (by omega), if_pos hassert]
  have hlen : (List.replicate size.toNat (0 : UInt8)).length = size.toNat := List.length_replicate
  obtain ⟨-, hmapping, hputs⟩ := putPage_spec h.own hmap off.toNat (List.replicate size.toNat 0)
  have hfit : off.toNat + (List.replicate size.toNat (0 : UInt8)).length ≤ 4096 := by omega
  obtain ⟨hown, hst⟩ := h.own.putPage hmap off.toNat hfit
  rw [show 4096 * (x.la.toNat / 4096 - 1) + off.toNat = x.start.toNat by omega] at hst
  have hkeeps := h.keeps.trans hputs.keeps
  rw [Nat.min_eq_left (by omega), Nat.max_eq_left (by omega)] at hkeeps
  refine ⟨_, rfl, ⟨hown, haligned, ?_, ?_, h.base_le, ?_, ?_, ?_, ?_, fun y hlo hhi => ?_, h.flags, hkeeps,
    fun _ => ⟨page, rfl, hmap⟩⟩, ?_⟩
  all_goals dsimp only at *
  case refine_7 =>
    by_cases hy : y < x.start.toNat
    · rw [hst.outside y (by omega)]
      exact h.bytes y hlo hy
    · have hin := hst.inside (y - x.start.toNat) (by omega)
      rw [Nat.add_sub_cancel' (not_lt.mp hy), List.getElem_replicate] at hin
      rw [hin, hzero y (by omega)]
  all_goals omega

/-! ### A segment -/

/-- The segment has a byte in the page. -/
def Proghdr.Touches (ph : Proghdr) (p : ℕ) : Prop :=
  ∃ y, ph.pVa.toNat ≤ y ∧ y < ph.pVa.toNat + ph.pMemsz.toNat ∧ y / 4096 = p

/-- The pages of the segment have its bytes and permissions; the bytes of the file are in the file. -/
structure Proghdr.Filled (ph : Proghdr) (file : List UInt8) (a : ℕ) (s : State) : Prop where
  size : ph.pFilesz.toNat ≤ ph.pMemsz.toNat
  read : 0 < ph.pFilesz.toNat → ph.pOffset.toNat + ph.pFilesz.toNat ≤ file.length
  bytes : ∀ y, ph.pVa.toNat ≤ y → y < ph.pVa.toNat + ph.pMemsz.toNat →
    userByte s a y = some (ph.byte file y)
  flags : ∀ p, ph.Touches p → (s.pte a p).flags = segPerm ph.pFlags

/-- Only pages of the segment change. -/
structure Proghdr.Within (ph : Proghdr) (a : ℕ) (s s' : State) : Prop where
  pte : ∀ b q, ¬ (b = a ∧ ph.Touches q) → s'.pte b q = s.pte b q
  view : ∀ b q, ¬ (b = a ∧ ph.Touches q) → view s' (b, q) = view s (b, q)

/-- The pages from the first one of the segment up to `la` are those that it touches. -/
theorem Fill.At.touches_iff {file : List UInt8} (h : x.At pool a file ph s₀ stop)
    (hstop : stop.toNat = ph.pVa.toNat + ph.pMemsz.toNat) (hdone : stop.toNat ≤ x.start.toNat)
    (hpos : 0 < ph.pMemsz.toNat) (p : ℕ) :
    ph.Touches p ↔ ph.pVa.toNat / 4096 ≤ p ∧ p < x.la.toNat / 4096 := by
  have hafter := h.after (by omega)
  have hla := h.la_lt
  have hle := h.le_stop
  have haligned := h.aligned
  constructor
  · rintro ⟨y, hlo, hhi, rfl⟩
    omega
  · intro hp
    by_cases hfirst : ph.pVa.toNat / 4096 = p
    · exact ⟨ph.pVa.toNat, le_rfl, by omega, hfirst⟩
    · exact ⟨4096 * p, by omega, by omega, by omega⟩

/-- The invariant of the loop that reads the segment. -/
structure Fill.Reading (pool : Set ℕ) (a : ℕ) (file : List UInt8) (ph : Proghdr) (s₀ : State)
    (x : Fill) : Prop where
  filled : x.At pool a file ph s₀ (ph.pVa + ph.pFilesz)
  filepos : x.filepos = ph.pOffset.toInt + ((x.start.toNat - ph.pVa.toNat : ℕ) : ℤ)
  read : ph.pVa.toNat < x.start.toNat → ph.pOffset.toInt = (ph.pOffset.toNat : ℤ) ∧
    ph.pOffset.toNat + (x.start.toNat - ph.pVa.toNat) ≤ file.length

theorem toInt_eq_of_nonneg {w : Uintptr} (h : 0 ≤ w.toInt) : w.toInt = (w.toNat : ℤ) := by
  rw [BitVec.toInt_eq_toNat_cond] at h ⊢
  split
  case isTrue => rfl
  case isFalse hbig =>
    rw [if_neg hbig] at h
    omega

theorem Fill.Reading.turn (h : x.Reading pool a env.file ph s₀)
    (hstop : (ph.pVa + ph.pFilesz).toNat = ph.pVa.toNat + ph.pFilesz.toNat)
    (hbound : (ph.pVa + ph.pFilesz).toNat < 2 ^ 37) (hmore : x.start < ph.pVa + ph.pFilesz) :
    (∃ ret, x.readTurn env a (segPerm ph.pFlags) (ph.pVa + ph.pFilesz) = .error (.cleanup ret)) ∨
    ∃ x', x.readTurn env a (segPerm ph.pFlags) (ph.pVa + ph.pFilesz) = .ok x' ∧
      x'.Reading pool a env.file ph s₀ ∧ x.start.toNat < x'.start.toNat := by
  have hlt := hmore
  rw [BitVec.lt_def] at hlt
  have hle := h.filled.before hlt
  rcases Fill.readTurn_spec h.filled.own (segPerm_valid ph.pFlags) hle h.filled.start_lt h.filled.aligned
    hmore (by omega) with herr | ⟨x', hok, hnonneg, hlen, hfilepos, hturned⟩
  · exact Or.inl herr
  have hva := h.filled.va_le
  have hpos := h.filepos
  have hoffset : ph.pOffset.toInt = (ph.pOffset.toNat : ℤ) := by
    by_cases hfirst : ph.pVa.toNat < x.start.toNat
    · exact (h.read hfirst).1
    · exact toInt_eq_of_nonneg (by omega)
  have hend := hturned.start
  obtain ⟨hat, hgo⟩ := h.filled.turned hlt hturned fun y hlo hhi => by
    rw [Proghdr.byte, if_pos (by omega)]
    congr 1
    omega
  exact Or.inr ⟨x', hok, ⟨hat, by omega, fun _ => ⟨hoffset, by omega⟩⟩, hgo⟩

/-- **A segment is filled**: the loops end early, or the segment is in memory. -/
theorem fillSegment_spec (env : Env) (s : Image) (h : Own pool a s.pages) (hsize : ph.pFilesz.toNat ≤ ph.pMemsz.toNat)
    (hpos : 0 < ph.pMemsz.toNat) (hbound : ph.pVa.toNat + ph.pMemsz.toNat < 2 ^ 37) :
    (∃ ret, fillSegment env a ph s = .error (.cleanup ret)) ∨
    ∃ s', fillSegment env a ph s = .ok s' ∧ Own pool a s'.pages ∧ ph.Filled env.file a s'.pages ∧
      ph.Within a s.pages s'.pages := by
  have hstop : (ph.pVa + ph.pFilesz).toNat = ph.pVa.toNat + ph.pFilesz.toNat := by
    rw [BitVec.toNat_add, Nat.mod_eq_of_lt (by omega)]
  have hstop' : (ph.pVa + ph.pMemsz).toNat = ph.pVa.toNat + ph.pMemsz.toNat := by
    rw [BitVec.toNat_add, Nat.mod_eq_of_lt (by omega)]
  have hround := toNat_roundDown ph.pVa
  have hzero : ∀ y, (ph.pVa + ph.pFilesz).toNat ≤ y → ph.byte env.file y = 0 :=
    fun y hy => if_neg (by omega)
  have hat : (Fill.ofSegment ph s).Reading pool a env.file ph s.pages := by
    refine ⟨⟨h, ?_, ?_, ?_, ?_, ?_, ?_, ?_, ?_, fun y hlo hhi => ?_, fun p hlo hhi => ?_, .refl _ _ _ _,
      fun hlt => ?_⟩, ?_, fun hlt => ?_⟩
    all_goals dsimp only [Fill.ofSegment] at *
    all_goals omega
  have hstart : (Fill.ofSegment ph s).start.toNat = ph.pVa.toNat := rfl
  rw [fillSegment]
  rcases Fill.loop_spec (fun x h hmore => h.turn hstop (by omega) hmore) ph.pFilesz.toNat hat
    (by omega) with ⟨ret, herr⟩ | ⟨x₁, hok₁, h₁, hdone₁⟩
  · exact Or.inl ⟨ret, by rw [herr]; rfl⟩
  obtain ⟨x₂, hok₂, h₂, hle₂⟩ := Fill.clearPartial_spec (ph.pVa + ph.pMemsz) h₁.filled hdone₁
    (by omega) (by omega) hzero
  have hturn : ∀ x : Fill, x.At pool a env.file ph s.pages (ph.pVa + ph.pMemsz) ∧
      (ph.pVa + ph.pFilesz).toNat ≤ x.start.toNat → x.start < ph.pVa + ph.pMemsz →
      (∃ ret, x.zeroTurn env a (segPerm ph.pFlags) (ph.pVa + ph.pMemsz) = .error (.cleanup ret)) ∨
      ∃ x', x.zeroTurn env a (segPerm ph.pFlags) (ph.pVa + ph.pMemsz) = .ok x' ∧
        (x'.At pool a env.file ph s.pages (ph.pVa + ph.pMemsz) ∧
          (ph.pVa + ph.pFilesz).toNat ≤ x'.start.toNat) ∧ x.start.toNat < x'.start.toNat := by
    intro x hx hmore
    have hlt := hmore
    rw [BitVec.lt_def] at hlt
    have hle := hx.1.before hlt
    rcases Fill.zeroTurn_spec hx.1.own (segPerm_valid ph.pFlags) hle hx.1.start_lt hx.1.aligned hmore
      (by omega) with herr | ⟨x', hok, hturned⟩
    · exact Or.inl herr
    · obtain ⟨hat', hgo⟩ := hx.1.turned hlt hturned fun y hlo _ => (hzero y (by omega)).symm
      exact Or.inr ⟨x', hok, ⟨hat', by omega⟩, hgo⟩
  have hva₂ := h₂.va_le
  rcases Fill.loop_spec hturn ph.pMemsz.toNat ⟨h₂, by omega⟩ (by omega) with
    ⟨ret, herr⟩ | ⟨x₃, hok₃, ⟨h₃, hge₃⟩, hdone₃⟩
  · refine Or.inl ⟨ret, ?_⟩
    simp only [hok₁, hok₂, herr, bind, Except.bind]
  have htouches := h₃.touches_iff hstop' hdone₃ hpos
  have hpages : ∀ b q, ¬ (b = a ∧ ph.Touches q) →
      ¬ (b = a ∧ ph.pVa.toNat / 4096 ≤ q ∧ q < x₃.la.toNat / 4096) :=
    fun b q hq hin => hq ⟨hin.1, (htouches q).mpr hin.2⟩
  refine Or.inr ⟨x₃.toImage, ?_, h₃.own, ⟨hsize, fun hfile => ?_, fun y hlo hhi => h₃.bytes y hlo (by omega),
    fun p hp => h₃.flags p ((htouches p).mp hp).1 ((htouches p).mp hp).2⟩,
    fun b q hq => h₃.keeps.pte b q (hpages b q hq), fun b q hq => h₃.keeps.view b q (hpages b q hq)⟩
  · simp only [hok₁, hok₂, hok₃, bind, Except.bind]
  · have hread := (h₁.read (by omega)).2
    have hle := h₁.filled.le_stop
    omega

end Ucore.Exec
