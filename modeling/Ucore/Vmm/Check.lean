import Mathlib.Order.Bounds.Basic
import Ucore.Vmm.Map

/-!
# Checking a user range (`lab8/kern/mm/vmm.c`)

`user_mem_check` goes from area to area.  **`userMemCheck_exact`** says what it accepts, in terms of the
bytes of the range alone: neither the cache of `find_vma` nor how the range is cut into areas matters.
-/

namespace Ucore.Vmm

def KERNBASE : Uintptr := 0xFFFFFFFFC0200000

/-- `KERNBASE + KMEMSIZE`. -/
def KERNTOP : Uintptr := KERNBASE + 0x7E00000

def VM_READ : BitVec 32 := 1

def VM_WRITE : BitVec 32 := 2

def VM_EXEC : BitVec 32 := 4

def VM_STACK : BitVec 32 := 8

/-- `KERN_ACCESS`. -/
def kernAccess (start stop : Uintptr) : Bool := KERNBASE ≤ start && start < stop && stop ≤ KERNTOP

/-- The area may be read, or written. -/
def Vma.allows (vma : Vma) (write : Bool) : Bool :=
  vma.vmFlags &&& (if write then VM_WRITE else VM_READ) ≠ 0

def Vma.isStack (vma : Vma) : Bool := vma.vmFlags &&& VM_STACK ≠ 0

/-- `find_vma` returns an area around the address. -/
theorem contains_of_findVma {mm mm' : MmStruct} {addr : Uintptr} {vma : Vma}
    (h : findVma mm addr = (some vma, mm')) : vma.contains addr := by
  have hlist : ∀ v, mm.mmapList.find? (·.contains addr) = some v → v.contains addr := by
    intro v hv
    have hcontains := List.find?_some hv
    exact hcontains
  rw [findVma] at h
  rcases hcache : mm.mmapCache with _ | c
  · rw [hcache] at h
    dsimp only at h
    split at h
    case h_1 v hv =>
      cases h
      exact hlist _ hv
    case h_2 => cases h
  · rw [hcache] at h
    dsimp only at h
    by_cases hc : c.contains addr
    · rw [if_pos hc] at h
      cases h
      exact hc
    · rw [if_neg hc] at h
      split at h
      case h_1 v hv =>
        cases h
        exact hlist _ hv
      case h_2 => cases h

/-- The loop of `user_mem_check`. -/
def memCheckLoop (write : Bool) (mm : MmStruct) (start stop : Uintptr) : Bool × MmStruct :=
  if start < stop then
    match hfind : findVma mm start with
    | (none, mm) => (false, mm)
    | (some vma, mm) =>
      have _hend : start.toNat < vma.vmEnd.toNat :=
        ((vma.contains_iff start).mp (contains_of_findVma hfind)).2
      if start < vma.vmStart then (false, mm)
      else if !vma.allows write then (false, mm)
      else if write && vma.isStack && start < vma.vmStart + PGSIZE then (false, mm)
      else memCheckLoop write mm vma.vmEnd stop
  else (true, mm)
termination_by stop.toNat - start.toNat
decreasing_by
  rename_i hlt _ _ _
  rw [BitVec.lt_def] at hlt
  omega

/-- `user_mem_check`. -/
def userMemCheck (mm : Option MmStruct) (addr len : Uintptr) (write : Bool) :
    Bool × Option MmStruct :=
  match mm with
  | some mm =>
    if !userAccess addr (addr + len) then (false, some mm)
    else
      let (ok, mm) := memCheckLoop write mm addr (addr + len)
      (ok, some mm)
  | none => (kernAccess addr (addr + len), none)

/-! ## What is accepted -/

/-- The byte belongs to the area. -/
def Vma.Holds (vma : Vma) (a : ℕ) : Prop := vma.vmStart.toNat ≤ a ∧ a < vma.vmEnd.toNat

/-- The bytes `[lo, hi)` are in areas that allow the access.  In an area of the stack, the first of
them that is written is not in the lowest page. -/
structure Checked (vmas : List Vma) (write : Bool) (lo hi : ℕ) : Prop where
  bytes : ∀ a, lo ≤ a → a < hi → ∃ v ∈ vmas, v.Holds a ∧ v.allows write
  stack : write = true → ∀ v ∈ vmas, v.isStack → ∀ a,
    IsLeast { a | lo ≤ a ∧ a < hi ∧ v.Holds a } a → v.vmStart.toNat + 4096 ≤ a

/-- What `user_mem_check` accepts. -/
structure Accessible (vmas : List Vma) (write : Bool) (addr len : ℕ) : Prop where
  pos : 0 < len
  user : 0x200000 ≤ addr ∧ addr + len ≤ 0x80000000
  checked : Checked vmas write addr (addr + len)

theorem Ordered.eq_of_holds {vmas : List Vma} (h : Ordered vmas) {v w : Vma} (hv : v ∈ vmas)
    (hw : w ∈ vmas) {a : ℕ} (hav : v.Holds a) (haw : w.Holds a) : v = w := by
  obtain ⟨hv₁, hv₂⟩ := hav
  obtain ⟨hw₁, hw₂⟩ := haw
  rcases h.apart hv hw with heq | hlt | hlt
  · exact heq
  · rw [BitVec.le_def] at hlt
    omega
  · rw [BitVec.le_def] at hlt
    omega

/-- One round of the loop: the bytes up to the end of the area `v`, and the rest. -/
theorem checked_iff {vmas : List Vma} (h : Ordered vmas) {write : Bool} {lo hi : ℕ} {v : Vma}
    (hv : v ∈ vmas) (hlo : v.Holds lo) (hlt : lo < hi) :
    Checked vmas write lo hi ↔ v.allows write ∧
      (write = true → v.isStack → v.vmStart.toNat + 4096 ≤ lo) ∧
      Checked vmas write v.vmEnd.toNat hi := by
  have hend : lo < v.vmEnd.toNat := hlo.2
  -- in another area the bytes are the same with and without those of `v`
  have hother : ∀ w ∈ vmas, w ≠ v → ∀ a, lo ≤ a → w.Holds a → v.vmEnd.toNat ≤ a := by
    intro w hw hne a ha hhold
    by_contra hnot
    exact hne (h.eq_of_holds hw hv hhold ⟨hlo.1.trans ha, not_le.mp hnot⟩)
  constructor
  · intro hc
    refine ⟨?_, ?_, ?_, ?_⟩
    · obtain ⟨w, hw, hhold, hallows⟩ := hc.bytes lo le_rfl hlt
      rw [h.eq_of_holds hw hv hhold hlo] at hallows
      exact hallows
    · intro hwrite hstack
      exact hc.stack hwrite v hv hstack lo ⟨⟨le_rfl, hlt, hlo⟩, fun a ha => ha.1⟩
    · exact fun a ha => hc.bytes a (hend.le.trans ha)
    · intro hwrite w hw hstack a ha
      have hwv : w ≠ v := by
        rintro rfl
        have hge := ha.1.1
        have hlt' := ha.1.2.2.2
        omega
      refine hc.stack hwrite w hw hstack a ⟨⟨hend.le.trans ha.1.1, ha.1.2⟩, fun b hb => ?_⟩
      exact ha.2 ⟨hother w hw hwv b hb.1 hb.2.2, hb.2⟩
  · rintro ⟨hallows, hstack, hc⟩
    refine ⟨fun a ha hah => ?_, fun hwrite w hw hws a ha => ?_⟩
    · by_cases hav : a < v.vmEnd.toNat
      · exact ⟨v, hv, ⟨hlo.1.trans ha, hav⟩, hallows⟩
      · exact hc.bytes a (not_lt.mp hav) hah
    · by_cases hwv : w = v
      · subst hwv
        have hle : lo ≤ a := ha.1.1
        exact (hstack hwrite hws).trans hle
      · refine hc.stack hwrite w hw hws a ⟨⟨?_, ha.1.2⟩, fun b hb => ?_⟩
        · exact hother w hw hwv a ha.1.1 ha.1.2.2
        · exact ha.2 ⟨hend.le.trans hb.1, hb.2⟩

/-- Nothing is left to check. -/
theorem checked_of_le (vmas : List Vma) (write : Bool) {lo hi : ℕ} (h : hi ≤ lo) :
    Checked vmas write lo hi :=
  ⟨fun a ha hah => by omega, fun _ _ _ _ a ha => by
    have hlo := ha.1.1
    have hhi := ha.1.2.1
    omega⟩

/-! ## The loop -/

theorem memCheckLoop_spec (write : Bool) (mm : MmStruct) (start stop : Uintptr)
    (hordered : Ordered mm.mmapList) (hcached : ∀ v ∈ mm.mmapCache, v ∈ mm.mmapList)
    (hstop : stop.toNat ≤ 0x80000000) :
    ((memCheckLoop write mm start stop).1 = true ↔
      Checked mm.mmapList write start.toNat stop.toNat) ∧
    (memCheckLoop write mm start stop).2.mmapList = mm.mmapList ∧
    ∀ v ∈ (memCheckLoop write mm start stop).2.mmapCache, v ∈ mm.mmapList := by
  -- on the number of bytes that are left
  induction hn : stop.toNat - start.toNat using Nat.strong_induction_on generalizing mm start with
  | _ n ih =>
    rw [memCheckLoop]
    by_cases hlt : start < stop
    · rw [if_pos hlt]
      rw [BitVec.lt_def] at hlt
      rcases mm.findVma_cases hcached start with ⟨v, hv, hcontains, hfind⟩ | ⟨hnone, hfind⟩
      · have hholds : v.Holds start.toNat := (v.contains_iff start).mp hcontains
        have hcached' : ∀ w ∈ some v, w ∈ mm.mmapList := by
          intro w hw
          cases hw
          exact hv
        have hstart : ¬ start < v.vmStart := by
          rw [BitVec.lt_def]
          exact not_lt.mpr hholds.1
        have hpage : (v.vmStart + PGSIZE).toNat = v.vmStart.toNat + 4096 := by
          have hlow := hholds.1
          rw [BitVec.toNat_add, PGSIZE]
          have hsize : (4096 : Uintptr).toNat = 4096 := rfl
          rw [hsize]
          omega
        split
        case h_1 hfind' => cases hfind.symm.trans hfind'
        case h_2 w mm' hfind' =>
          cases hfind.symm.trans hfind'
          rw [if_neg hstart, checked_iff hordered hv hholds hlt]
          split
          case isTrue hallows =>
            refine ⟨iff_of_false Bool.false_ne_true fun hand => ?_, rfl, hcached'⟩
            rw [hand.1] at hallows
            cases hallows
          case isFalse hallows =>
            rw [Bool.not_eq_true, Bool.not_eq_false'] at hallows
            split
            case isTrue hstack =>
              simp only [Bool.and_eq_true, decide_eq_true_eq, BitVec.lt_def, hpage] at hstack
              refine ⟨iff_of_false Bool.false_ne_true fun hand => ?_, rfl, hcached'⟩
              exact absurd (hand.2.1 hstack.1.1 hstack.1.2) (by omega)
            case isFalse hstack =>
              simp only [Bool.and_eq_true, decide_eq_true_eq, BitVec.lt_def, hpage] at hstack
              have hend := hholds.2
              obtain ⟨hiff, hrest⟩ := ih (stop.toNat - v.vmEnd.toNat) (by omega)
                { mm with mmapCache := some v } v.vmEnd hordered hcached' rfl
              refine ⟨?_, hrest⟩
              rw [hiff]
              refine ⟨fun hc => ⟨hallows, fun hw hs => ?_, hc⟩, fun hand => hand.2.2⟩
              by_contra hnot
              exact hstack ⟨⟨hw, hs⟩, not_le.mp hnot⟩
      · split
        case h_2 hfind' => cases hfind.symm.trans hfind'
        case h_1 mm' hfind' =>
          cases hfind.symm.trans hfind'
          refine ⟨iff_of_false Bool.false_ne_true fun hc => ?_, rfl, hcached⟩
          obtain ⟨w, hw, hholds, -⟩ := hc.bytes start.toNat le_rfl hlt
          exact hnone w hw ((w.contains_iff start).mpr hholds)
    · rw [if_neg hlt]
      rw [BitVec.lt_def] at hlt
      exact ⟨iff_of_true rfl (checked_of_le _ _ (not_lt.mp hlt)), rfl, hcached⟩

/-- `USER_ACCESS` of the two ends is about the range: the sum does not wrap. -/
theorem userAccess_range (addr len : Uintptr) : userAccess addr (addr + len) ↔
    0 < len.toNat ∧ 0x200000 ≤ addr.toNat ∧ addr.toNat + len.toNat ≤ 0x80000000 := by
  have ha := addr.isLt
  have hl := len.isLt
  rw [userAccess_iff, BitVec.toNat_add]
  by_cases hwrap : addr.toNat + len.toNat < 2 ^ 64
  · rw [Nat.mod_eq_of_lt hwrap]
    omega
  · rw [Nat.mod_eq_sub_mod (not_lt.mp hwrap), Nat.mod_eq_of_lt (by omega)]
    omega

theorem userMemCheck_spec (mm : MmStruct) (hordered : Ordered mm.mmapList)
    (hcached : ∀ v ∈ mm.mmapCache, v ∈ mm.mmapList) (addr len : Uintptr) (write : Bool) :
    ∃ ok mm', userMemCheck (some mm) addr len write = (ok, some mm') ∧
      (ok = true ↔ Accessible mm.mmapList write addr.toNat len.toNat) ∧
      mm'.mmapList = mm.mmapList := by
  rw [userMemCheck]
  have hrange := userAccess_range addr len
  by_cases haccess : userAccess addr (addr + len)
  · obtain ⟨hpos, hlow, hhigh⟩ := hrange.mp haccess
    have hsum : (addr + len).toNat = addr.toNat + len.toNat := by
      rw [BitVec.toNat_add, Nat.mod_eq_of_lt (by omega)]
    obtain ⟨hiff, hlist, -⟩ := memCheckLoop_spec write mm addr (addr + len) hordered hcached
      (by omega)
    refine ⟨_, _, if_neg (by rw [haccess]; decide), ?_, hlist⟩
    rw [hiff, hsum]
    exact ⟨fun hc => ⟨hpos, ⟨hlow, hhigh⟩, hc⟩, fun h => h.checked⟩
  · refine ⟨false, mm, if_pos (by rw [Bool.not_eq_true] at haccess; rw [haccess]; rfl), ?_, rfl⟩
    refine iff_of_false (by decide) fun h => haccess (hrange.mpr ?_)
    exact ⟨h.pos, h.user.1, h.user.2⟩

/-- **`user_mem_check` is exact**, whatever the cache. -/
theorem userMemCheck_exact (mm : MmStruct) (hordered : Ordered mm.mmapList)
    (hcached : ∀ v ∈ mm.mmapCache, v ∈ mm.mmapList) (addr len : Uintptr) (write : Bool) :
    (∃ ok mm', userMemCheck (some mm) addr len write = (ok, some mm') ∧
      (ok = true ↔ Accessible mm.mmapList write addr.toNat len.toNat) ∧
      mm'.mmapList = mm.mmapList) ∧
    ∀ cache, (∀ v ∈ cache, v ∈ mm.mmapList) →
      (userMemCheck (some { mm with mmapCache := cache }) addr len write).1 =
        (userMemCheck (some mm) addr len write).1 := by
  obtain ⟨ok, mm', hrun, hiff, hlist⟩ := userMemCheck_spec mm hordered hcached addr len write
  refine ⟨⟨ok, mm', hrun, hiff, hlist⟩, fun cache hcache => ?_⟩
  obtain ⟨ok', mm'', hrun', hiff', -⟩ :=
    userMemCheck_spec { mm with mmapCache := cache } hordered hcache addr len write
  rw [hrun, hrun']
  exact Bool.eq_iff_iff.mpr (hiff'.trans hiff.symm)

/-- A write over two areas that touch. -/
theorem userMemCheck_two : ∃ mm', userMemCheck
    (some ⟨[⟨0x200000, 0x202000, 3⟩, ⟨0x202000, 0x203000, 2⟩], none, 2⟩) 0x201000 0x1800 true =
      (true, some mm') := by
  have hordered : Ordered [⟨0x200000, 0x202000, 3⟩, ⟨0x202000, 0x203000, 2⟩] :=
    ⟨by decide, by decide⟩
  obtain ⟨ok, mm', hrun, hiff, -⟩ :=
    (userMemCheck_exact ⟨[⟨0x200000, 0x202000, 3⟩, ⟨0x202000, 0x203000, 2⟩], none, 2⟩ hordered nofun
      0x201000 0x1800 true).1
  refine ⟨mm', hrun.trans (congrArg (·, some mm') (hiff.mpr ⟨by decide, by decide, ?_, ?_⟩))⟩
  · intro a (hlo : 0x201000 ≤ a) (hhi : a < 0x201000 + 0x1800)
    by_cases ha : a < 0x202000
    · exact ⟨_, List.mem_cons_self, ⟨(by decide : 0x200000 ≤ 0x201000).trans hlo, ha⟩, rfl⟩
    · exact ⟨_, List.mem_cons_of_mem _ List.mem_cons_self, ⟨not_lt.mp ha, by
        show a < 0x203000
        omega⟩, rfl⟩
  · intro _ v hv hstack
    have hno : ∀ v ∈ ([⟨0x200000, 0x202000, 3⟩, ⟨0x202000, 0x203000, 2⟩] : List Vma),
      v.isStack = false := by decide
    exact nomatch (hno v hv).symm.trans hstack

end Ucore.Vmm
