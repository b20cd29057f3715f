import Mathlib.Data.List.Chain
import Mathlib.Data.List.TakeWhile
import Ucore.Vmm.Model

/-!
# When `mm_map` keeps its promise

`Ordered` is the invariant of a list of areas: none is empty and each ends before the next begins.
`insert_vma_struct` asserts no more than that the list with the new area is ordered again
(`insertVmaStruct_ok`), but `mm_map` asks only for an area around the first page of the new range.
An area that begins further inside, or a length with which the end of the range wraps around the
address space, comes past the check, and `mapsSoundly_iff` says that these are the only cases in
which the call does not do what it should.
-/

namespace Ucore.Vmm

open Fallible

/-! ## Page bounds -/

/-- The first byte of the page of `addr`. -/
def lowPage (addr : Uintptr) : ℕ := addr.toNat / 4096 * 4096

/-- The first page boundary at or after the end of `[addr, addr + len)`, in numbers that do not wrap. -/
def highPage (addr len : Uintptr) : ℕ := (addr.toNat + len.toNat + 4095) / 4096 * 4096

theorem toNat_roundDown (a : Uintptr) : (roundDown a).toNat = a.toNat / 4096 * 4096 := by
  have hmod : (a % PGSIZE).toNat = a.toNat % 4096 := BitVec.toNat_umod
  have ha := a.isLt
  rw [roundDown, BitVec.toNat_sub, hmod]
  omega

/-- The rounded end of the code is the true one without its bits above the 64th. -/
theorem toNat_roundUp (addr len : Uintptr) :
    (roundUp (addr + len)).toNat = highPage addr len % 2 ^ 64 := by
  have hsum : (addr + len + PGSIZE - 1).toNat = (addr.toNat + len.toNat + 4095) % 2 ^ 64 := by
    rw [PGSIZE]
    bv_omega
  rw [roundUp, toNat_roundDown, hsum, highPage]
  omega

theorem userAccess_iff (start stop : Uintptr) :
    userAccess start stop ↔
      0x200000 ≤ start.toNat ∧ start.toNat < stop.toNat ∧ stop.toNat ≤ 0x80000000 := by
  simp [userAccess, BitVec.le_def, BitVec.lt_def, USERBASE, USERTOP, and_assoc]

theorem Vma.contains_iff (vma : Vma) (addr : Uintptr) :
    vma.contains addr ↔ vma.vmStart.toNat ≤ addr.toNat ∧ addr.toNat < vma.vmEnd.toNat := by
  simp [Vma.contains, BitVec.le_def, BitVec.lt_def]

/-! ## Ordered lists of areas -/

/-- The areas are not empty, and each ends before the next one begins. -/
structure Ordered (vmas : List Vma) : Prop where
  nonempty : ∀ v ∈ vmas, v.vmStart < v.vmEnd
  sorted : vmas.Pairwise fun v w => v.vmEnd ≤ w.vmStart

/-- An `mm_struct` as the functions of `vmm.c` keep it. -/
structure Mm extends MmStruct where
  ordered : Ordered mmapList
  cached : ∀ v ∈ mmapCache, v ∈ mmapList
  counted : mapCount = mmapList.length

/-- Of two areas of the list one is before the other. -/
theorem Ordered.apart {vmas : List Vma} (h : Ordered vmas) {v w : Vma} (hv : v ∈ vmas)
    (hw : w ∈ vmas) : v = w ∨ v.vmEnd ≤ w.vmStart ∨ w.vmEnd ≤ v.vmStart := by
  have hsorted := h.sorted
  clear h
  induction vmas with
  | nil => cases hv
  | cons u vmas ih =>
    obtain ⟨hu, hsorted⟩ := List.pairwise_cons.1 hsorted
    rcases List.mem_cons.1 hv with hvu | hv'
    · rcases List.mem_cons.1 hw with hwu | hw'
      · exact .inl (hvu.trans hwu.symm)
      · exact .inr (.inl (hvu ▸ hu w hw'))
    · rcases List.mem_cons.1 hw with hwu | hw'
      · exact .inr (.inr (hwu ▸ hu v hv'))
      · exact ih hv' hw' hsorted

/-- What `check_vma_overlap` asserts. -/
def Before (prev next : Vma) : Prop :=
  prev.vmStart < prev.vmEnd ∧ prev.vmEnd ≤ next.vmStart ∧ next.vmStart < next.vmEnd

theorem Before.trans {u v w : Vma} (huv : Before u v) (hvw : Before v w) : Before u w := by
  simp only [Before, BitVec.le_def, BitVec.lt_def] at *
  omega

instance : IsTrans Vma Before := ⟨fun _ _ _ => Before.trans⟩

/-- In an ordered list it is enough to look at neighbours. -/
theorem ordered_iff {vmas : List Vma} :
    Ordered vmas ↔ (∀ v ∈ vmas, v.vmStart < v.vmEnd) ∧ vmas.IsChain Before := by
  rw [List.isChain_iff_pairwise]
  constructor
  · intro h
    refine ⟨h.nonempty, h.sorted.imp_of_mem fun hv hw hle => ?_⟩
    exact ⟨h.nonempty _ hv, hle, h.nonempty _ hw⟩
  · intro h
    exact ⟨h.1, h.2.imp fun hvw => hvw.2.1⟩

theorem checkVmaOverlap_eq_ok {prev next : Vma} {u : Unit} :
    checkVmaOverlap prev next = .ok u ↔ Before prev next := by
  simp only [checkVmaOverlap, bind_eq_ok, require_eq_ok, Before]
  tauto

/-! ## `find_vma` -/

/-- The cached area answers only for its own addresses. -/
theorem MmStruct.findVma_cases (mm : MmStruct) (hcached : ∀ v ∈ mm.mmapCache, v ∈ mm.mmapList)
    (addr : Uintptr) : (∃ v ∈ mm.mmapList, v.contains addr ∧
      findVma mm addr = (some v, { mm with mmapCache := some v })) ∨
    (∀ v ∈ mm.mmapList, ¬ v.contains addr) ∧ findVma mm addr = (none, mm) := by
  have hlist : (∃ v ∈ mm.mmapList, v.contains addr ∧
      mm.mmapList.find? (·.contains addr) = some v) ∨
      (∀ v ∈ mm.mmapList, ¬ v.contains addr) ∧ mm.mmapList.find? (·.contains addr) = none := by
    cases hfind : mm.mmapList.find? (·.contains addr) with
    | none => exact .inr ⟨List.find?_eq_none.1 hfind, rfl⟩
    | some v =>
      have hcontains := List.find?_some hfind
      exact .inl ⟨v, List.mem_of_find?_eq_some hfind, hcontains, rfl⟩
  rcases hcache : mm.mmapCache with _ | c
  · rcases hlist with ⟨v, hv, hcontains, hfind⟩ | ⟨hnone, hfind⟩
    · exact .inl ⟨v, hv, hcontains, by simp [findVma, hcache, hfind]⟩
    · exact .inr ⟨hnone, by simp [findVma, hcache, hfind]⟩
  · by_cases hc : c.contains addr
    · exact .inl ⟨c, hcached c hcache, hc, by simp [findVma, hcache, hc]⟩
    · rcases hlist with ⟨v, hv, hcontains, hfind⟩ | ⟨hnone, hfind⟩
      · exact .inl ⟨v, hv, hcontains, by simp [findVma, hcache, hc, hfind]⟩
      · exact .inr ⟨hnone, by simp [findVma, hcache, hc, hfind]⟩

/-- There is at most one area around an address, so the cache makes no difference to the answer. -/
theorem findVma_cases (mm : Mm) (addr : Uintptr) :
    (∃ v ∈ mm.mmapList, v.contains addr ∧
      findVma mm.toMmStruct addr = (some v, { mm.toMmStruct with mmapCache := some v })) ∨
    (∀ v ∈ mm.mmapList, ¬ v.contains addr) ∧ findVma mm.toMmStruct addr = (none, mm.toMmStruct) :=
  mm.toMmStruct.findVma_cases mm.cached addr

/-! ## `insert_vma_struct` -/

theorem passed_append_rest (vmas : List Vma) (vma : Vma) :
    passed vmas vma ++ rest vmas vma = vmas :=
  List.takeWhile_append_dropWhile

/-- The assertions look at the two neighbours of the new area only. -/
theorem insertVmaStruct_eq_ok {mm mm' : MmStruct} {vma : Vma} :
    insertVmaStruct mm vma = .ok mm' ↔
      vma.vmStart < vma.vmEnd ∧ (∀ prev ∈ (passed mm.mmapList vma).getLast?, Before prev vma) ∧
      (∀ next ∈ (rest mm.mmapList vma).head?, Before vma next) ∧
      mm' = { mm with
        mmapList := passed mm.mmapList vma ++ vma :: rest mm.mmapList vma
        mapCount := mm.mapCount + 1 } := by
  simp only [insertVmaStruct, bind_eq_ok, require_eq_ok]
  rcases (passed mm.mmapList vma).getLast? with _ | prev <;>
    rcases (rest mm.mmapList vma).head? with _ | next <;>
    simp [bind_eq_ok, checkVmaOverlap_eq_ok, pure, Except.pure, @eq_comm _ mm']

/-- The neighbours stand for the whole list. -/
theorem ordered_insert_iff {vmas : List Vma} (h : Ordered vmas) {vma : Vma} :
    Ordered (passed vmas vma ++ vma :: rest vmas vma) ↔
      vma.vmStart < vma.vmEnd ∧ (∀ prev ∈ (passed vmas vma).getLast?, Before prev vma) ∧
      ∀ next ∈ (rest vmas vma).head?, Before vma next := by
  rw [← passed_append_rest vmas vma] at h
  simp only [ordered_iff, List.isChain_append, List.isChain_cons, List.mem_append, List.mem_cons,
    List.head?_cons, Option.mem_some_iff] at h ⊢
  obtain ⟨hnonempty, hpassed, hrest, -⟩ := h
  constructor
  · rintro ⟨hall, -, ⟨hnext, -⟩, hprev⟩
    exact ⟨hall vma (.inr (.inl rfl)), fun prev hp => hprev prev hp vma rfl, hnext⟩
  · rintro ⟨hvma, hprev, hnext⟩
    refine ⟨?_, hpassed, ⟨hnext, hrest⟩, fun prev hp w hw => hw ▸ hprev prev hp⟩
    rintro v (hv | rfl | hv)
    · exact hnonempty v (.inl hv)
    · exact hvma
    · exact hnonempty v (.inr hv)

/-- `insert_vma_struct` comes back exactly when the list with the new area is ordered. -/
theorem insertVmaStruct_ok (mm : Mm) {mm' : MmStruct} {vma : Vma} :
    insertVmaStruct mm.toMmStruct vma = .ok mm' ↔
      Ordered (passed mm.mmapList vma ++ vma :: rest mm.mmapList vma) ∧
      mm' = { mm.toMmStruct with
        mmapList := passed mm.mmapList vma ++ vma :: rest mm.mmapList vma
        mapCount := mm.mapCount + 1 } := by
  rw [insertVmaStruct_eq_ok, ordered_insert_iff mm.ordered]
  tauto

/-! ## `mm_map` -/

/-- The range of whole pages lies between `USERBASE` and `USERTOP`. -/
def UserRange (low high : ℕ) : Prop := 0x200000 ≤ low ∧ low < high ∧ high ≤ 0x80000000

/-- An area of the list has an address of the range. -/
def Intersects (vmas : List Vma) (low high : ℕ) : Prop :=
  ∃ v ∈ vmas, v.vmStart.toNat < high ∧ low < v.vmEnd.toNat

/-- The request is one that `mm_map` has to turn down. -/
def Refused (mm : MmStruct) (addr len : Uintptr) : Prop :=
  ¬ UserRange (lowPage addr) (highPage addr len) ∨
    Intersects mm.mmapList (lowPage addr) (highPage addr len)

/-- The areas are as they were; `find_vma` may have changed the cache. -/
def Unchanged (mm mm' : MmStruct) : Prop :=
  mm' = { mm with mmapCache := mm'.mmapCache } ∧ ∀ v ∈ mm'.mmapCache, v ∈ mm.mmapList

/-- The list has one more area, which covers `[addr, addr + len)` with the flags. -/
def Gained (mm mm' : MmStruct) (addr len : Uintptr) (vmFlags : BitVec 32) : Prop :=
  ∃ before vma behind, mm.mmapList = before ++ behind ∧ mm'.mmapList = before ++ vma :: behind ∧
    vma.vmFlags = vmFlags ∧
    (∀ byte, addr.toNat ≤ byte → byte < addr.toNat + len.toNat →
      vma.vmStart.toNat ≤ byte ∧ byte < vma.vmEnd.toNat) ∧
    Ordered mm'.mmapList ∧ (∀ v ∈ mm'.mmapCache, v ∈ mm'.mmapList) ∧ mm'.mapCount = mm.mapCount + 1

/-- What `mm_map` promises for a request: it comes back, and it maps the whole range or nothing. -/
def MapsSoundly (mem : Bool) (mm : MmStruct) (addr len : Uintptr) (vmFlags : BitVec 32) : Prop :=
  ∃ ret stored mm', mmMap mem mm addr len vmFlags = .ok (ret, stored, mm') ∧
    (Refused mm addr len → ret = -E_INVAL ∧ Unchanged mm mm') ∧
    (¬ Refused mm addr len →
      (mem = true → ret = 0 ∧ Gained mm mm' addr len vmFlags) ∧
      (mem = false → ret = -E_NO_MEM ∧ Unchanged mm mm'))

/-- The check of `mm_map` lets the request pass. -/
def Passes (mm : MmStruct) (addr len : Uintptr) : Prop :=
  userAccess (roundDown addr) (roundUp (addr + len)) ∧
    ∀ v ∈ mm.mmapList, ¬ v.contains (roundDown addr)

/-- The range does not wrap, and no area begins inside it. -/
def Fits (mm : MmStruct) (addr len : Uintptr) : Prop :=
  addr.toNat + len.toNat < 2 ^ 64 ∧
    ∀ v ∈ mm.mmapList, ¬ (roundDown addr < v.vmStart ∧ v.vmStart < roundUp (addr + len))

/-- `mm_map` once the check has passed. -/
theorem mmMap_of_passes {mm : Mm} {addr len : Uintptr} (h : Passes mm.toMmStruct addr len)
    (mem : Bool) (vmFlags : BitVec 32) :
    mmMap mem mm.toMmStruct addr len vmFlags =
      if mem then
        Except.map (fun mm' => (0, some ⟨roundDown addr, roundUp (addr + len), vmFlags⟩, mm'))
          (insertVmaStruct mm.toMmStruct ⟨roundDown addr, roundUp (addr + len), vmFlags⟩)
      else .ok (-E_NO_MEM, none, mm.toMmStruct) := by
  rcases findVma_cases mm (roundDown addr) with ⟨v, hv, hcontains, -⟩ | ⟨-, hfind⟩
  · exact absurd hcontains (h.2 v hv)
  · cases mem with
    | false => simp [mmMap, h.1, hfind, vmaCreate, pure, Except.pure]
    | true =>
      simp only [mmMap, h.1, hfind, vmaCreate, Bool.not_true, Bool.false_eq_true, if_false,
        Option.any_none, if_true]
      cases insertVmaStruct mm.toMmStruct ⟨roundDown addr, roundUp (addr + len), vmFlags⟩ with
      | error e => rfl
      | ok mm' => rfl

/-- `mm_map` when the check fails. -/
theorem mmMap_of_not_passes {mm : Mm} {addr len : Uintptr} (h : ¬ Passes mm.toMmStruct addr len)
    (mem : Bool) (vmFlags : BitVec 32) :
    ∃ mm', mmMap mem mm.toMmStruct addr len vmFlags = .ok (-E_INVAL, none, mm') ∧
      Unchanged mm.toMmStruct mm' := by
  by_cases huser : userAccess (roundDown addr) (roundUp (addr + len))
  · rcases findVma_cases mm (roundDown addr) with ⟨v, hv, hcontains, hfind⟩ | ⟨hnone, -⟩
    · have hlt : v.vmStart < roundUp (addr + len) := by
        rw [Vma.contains_iff] at hcontains
        rw [userAccess_iff] at huser
        rw [BitVec.lt_def]
        omega
      refine ⟨{ mm.toMmStruct with mmapCache := some v }, ?_, rfl, ?_⟩
      · simp [mmMap, huser, hfind, hlt, pure, Except.pure]
      · rintro w ⟨rfl⟩
        exact hv
    · exact absurd ⟨huser, hnone⟩ h
  · exact ⟨mm.toMmStruct, by simp [mmMap, huser, pure, Except.pure], rfl, mm.cached⟩

/-- The end of a range that does not wrap is rounded without wrapping when it is a user address. -/
theorem highPage_eq {addr len : Uintptr} (hwrap : addr.toNat + len.toNat < 2 ^ 64)
    (huser : userAccess (roundDown addr) (roundUp (addr + len))) :
    (roundUp (addr + len)).toNat = highPage addr len := by
  rw [userAccess_iff, toNat_roundUp] at huser
  rw [toNat_roundUp]
  unfold highPage at *
  omega

/-- A request that the check stops is one to turn down. -/
theorem refused_of_not_passes {mm : Mm} {addr len : Uintptr} (h : ¬ Passes mm.toMmStruct addr len) :
    Refused mm.toMmStruct addr len := by
  by_contra hok
  simp only [Refused, not_or, not_not] at hok
  obtain ⟨⟨hbase, hlt, htop⟩, hdisjoint⟩ := hok
  have hup : (roundUp (addr + len)).toNat = highPage addr len := by
    rw [toNat_roundUp]
    omega
  refine h ⟨?_, fun v hv hcontains => hdisjoint ⟨v, hv, ?_⟩⟩
  · rw [userAccess_iff, toNat_roundDown, hup]
    exact ⟨hbase, hlt, htop⟩
  · rw [Vma.contains_iff, toNat_roundDown] at hcontains
    unfold lowPage at *
    omega

/-- A request that the check lets pass is one to grant exactly when it fits. -/
theorem refused_iff_of_passes {mm : Mm} {addr len : Uintptr} (h : Passes mm.toMmStruct addr len) :
    Refused mm.toMmStruct addr len ↔ ¬ Fits mm.toMmStruct addr len := by
  obtain ⟨huser, hnone⟩ := h
  by_cases hwrap : addr.toNat + len.toNat < 2 ^ 64
  · have hup := highPage_eq hwrap huser
    have hrange : UserRange (lowPage addr) (highPage addr len) := by
      rw [userAccess_iff, toNat_roundDown, hup] at huser
      exact huser
    have hinside : ∀ v ∈ mm.mmapList,
        (v.vmStart.toNat < highPage addr len ∧ lowPage addr < v.vmEnd.toNat) ↔
          roundDown addr < v.vmStart ∧ v.vmStart < roundUp (addr + len) := by
      intro v hv
      have hnonempty := mm.ordered.nonempty v hv
      have hout := hnone v hv
      rw [Vma.contains_iff] at hout
      rw [BitVec.lt_def] at *
      rw [BitVec.lt_def, hup]
      rw [toNat_roundDown] at *
      unfold lowPage
      omega
    simp only [Refused, hrange, not_true, false_or, Fits, hwrap, true_and, Intersects]
    constructor
    · rintro ⟨v, hv, hcross⟩ hall
      exact hall v hv ((hinside v hv).1 hcross)
    · intro hall
      push Not at hall
      obtain ⟨v, hv, hcross⟩ := hall
      exact ⟨v, hv, (hinside v hv).2 hcross⟩
  · refine iff_of_true (.inl fun hrange => ?_) (fun hfits => hwrap hfits.1)
    obtain ⟨-, -, htop⟩ := hrange
    unfold highPage at htop
    omega

/-- Over a list without an area in the range, the new area finds its place. -/
theorem insertVmaStruct_of_fits {mm : Mm} {addr len : Uintptr} (h : Passes mm.toMmStruct addr len)
    (hfits : Fits mm.toMmStruct addr len) (vmFlags : BitVec 32) :
    ∃ mm', insertVmaStruct mm.toMmStruct ⟨roundDown addr, roundUp (addr + len), vmFlags⟩ = .ok mm' ∧
      Gained mm.toMmStruct mm' addr len vmFlags := by
  obtain ⟨huser, hnone⟩ := h
  have hend := highPage_eq hfits.1 huser
  have huser' := huser
  rw [userAccess_iff, toNat_roundDown] at huser'
  -- every other area ends before the new one begins, or begins after its end
  have hapart : ∀ v ∈ mm.mmapList, v.vmEnd.toNat ≤ (roundDown addr).toNat ∨
      (roundUp (addr + len)).toNat ≤ v.vmStart.toNat := by
    intro v hv
    have hout := hnone v hv
    have hbegin := hfits.2 v hv
    have hnonempty := mm.ordered.nonempty v hv
    rw [Vma.contains_iff] at hout
    rw [BitVec.lt_def] at hnonempty
    rw [BitVec.lt_def, BitVec.lt_def] at hbegin
    omega
  generalize hvma : Vma.mk (roundDown addr) (roundUp (addr + len)) vmFlags = vma
  have hstart : roundDown addr = vma.vmStart := by rw [← hvma]
  have hstop : roundUp (addr + len) = vma.vmEnd := by rw [← hvma]
  rw [hstart, hstop] at hapart
  have hlt : vma.vmStart.toNat < vma.vmEnd.toNat := by
    rw [← hstart, ← hstop, toNat_roundDown]
    exact huser'.2.1
  have hordered : Ordered (passed mm.mmapList vma ++ vma :: rest mm.mmapList vma) := by
    refine (ordered_insert_iff mm.ordered).2 ⟨hlt, fun prev hprev => ?_, fun next hnext => ?_⟩
    · have hmem := List.mem_of_getLast? hprev
      have hstop := List.mem_takeWhile_imp hmem
      have hmem : prev ∈ mm.mmapList := (List.takeWhile_prefix _).subset hmem
      have hnonempty := mm.ordered.nonempty prev hmem
      have hdisjoint := hapart prev hmem
      simp [BitVec.lt_def] at hstop
      rw [BitVec.lt_def] at hnonempty
      exact ⟨hnonempty, by rw [BitVec.le_def]; omega, hlt⟩
    · have hmem : next ∈ mm.mmapList := (List.dropWhile_suffix _).subset (List.mem_of_head? hnext)
      have hstop := List.head?_dropWhile_not (fun w : Vma => !(vma.vmStart < w.vmStart)) mm.mmapList
      have hnonempty := mm.ordered.nonempty next hmem
      have hdisjoint := hapart next hmem
      rw [← rest.eq_1, hnext] at hstop
      simp [BitVec.lt_def] at hstop
      rw [BitVec.lt_def] at hnonempty
      exact ⟨hlt, by rw [BitVec.le_def]; omega, hnonempty⟩
  refine ⟨_, (insertVmaStruct_ok mm).2 ⟨hordered, rfl⟩, passed mm.mmapList vma, vma,
    rest mm.mmapList vma, (passed_append_rest _ _).symm, rfl, by rw [← hvma], ?_, hordered, ?_, rfl⟩
  · intro byte hlow hhigh
    rw [← hstart, ← hstop, toNat_roundDown, hend]
    unfold highPage
    omega
  · intro v hv
    have hmem := mm.cached v hv
    rw [← passed_append_rest mm.mmapList vma] at hmem
    rw [List.mem_append] at hmem ⊢
    exact hmem.imp_right (List.mem_cons_of_mem _)

/-- `mm_map` keeps its promise exactly when a request that passes the check fits. -/
theorem mapsSoundly_iff (mm : Mm) (mem : Bool) (addr len : Uintptr) (vmFlags : BitVec 32) :
    MapsSoundly mem mm.toMmStruct addr len vmFlags ↔
      (Passes mm.toMmStruct addr len → Fits mm.toMmStruct addr len) := by
  by_cases hpasses : Passes mm.toMmStruct addr len
  · have heq := mmMap_of_passes hpasses mem vmFlags
    have hiff := refused_iff_of_passes hpasses
    by_cases hfits : Fits mm.toMmStruct addr len
    · refine iff_of_true ?_ fun _ => hfits
      have hgrant : ¬ Refused mm.toMmStruct addr len := fun href => hiff.1 href hfits
      cases mem with
      | false =>
        rw [if_neg Bool.false_ne_true] at heq
        refine ⟨_, _, _, heq, fun href => absurd href hgrant, fun _ => ⟨nofun, fun _ => ⟨rfl, rfl, ?_⟩⟩⟩
        exact mm.cached
      | true =>
        obtain ⟨mm', hins, hgained⟩ := insertVmaStruct_of_fits hpasses hfits vmFlags
        rw [if_pos rfl, hins] at heq
        exact ⟨_, _, _, heq, fun href => absurd href hgrant, fun _ => ⟨fun _ => ⟨rfl, hgained⟩, nofun⟩⟩
    · refine iff_of_false ?_ fun h => hfits (h hpasses)
      have href := hiff.2 hfits
      rintro ⟨ret, stored, mm', hmap, hrefused, -⟩
      obtain ⟨hret, hsame⟩ := hrefused href
      cases mem with
      | false =>
        rw [heq] at hmap
        cases hmap
        exact absurd hret (by decide)
      | true =>
        rw [heq, if_pos rfl, map_eq_ok] at hmap
        obtain ⟨mm'', -, heq'⟩ := hmap
        cases heq'
        exact absurd hret (by decide)
  · refine iff_of_true ?_ fun h => absurd h hpasses
    obtain ⟨mm', hmap, hsame⟩ := mmMap_of_not_passes hpasses mem vmFlags
    exact ⟨_, _, _, hmap, fun _ => ⟨rfl, hsame⟩,
      fun hgrant => absurd (refused_of_not_passes hpasses) hgrant⟩

/-- An `mm_struct` with one area, from the second page after `UTEXT` on. -/
def oneArea : Mm where
  mmapList := [⟨0x801000, 0x802000, 1⟩]
  mmapCache := none
  mapCount := 1
  ordered := ⟨by decide, List.pairwise_singleton _ _⟩
  cached := by simp
  counted := rfl

/-- A request whose range has that area in its middle stops the kernel. -/
theorem mapsSoundly_middle :
    mmMap true oneArea.toMmStruct 0x800000 0x3000 1 = .error .vmaOverlap ∧
      ¬ MapsSoundly true oneArea.toMmStruct 0x800000 0x3000 1 := by
  have herror : mmMap true oneArea.toMmStruct 0x800000 0x3000 1 = .error .vmaOverlap := by rfl
  refine ⟨herror, ?_⟩
  rintro ⟨ret, stored, mm', hmap, -⟩
  exact nomatch herror.symm.trans hmap

end Ucore.Vmm
