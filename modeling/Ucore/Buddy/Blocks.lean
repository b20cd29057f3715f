import Mathlib.Algebra.BigOperators.Intervals
import Ucore.Buddy.Model
import Ucore.Lib.Dyadic

/-!
# The free blocks of the buddy allocator

`blocks s` is the family of free blocks that the eleven lists of a state hold, and `Inv n s` is the
invariant of the manager: the family is canonical, every list entry is marked as the head of a block
of its list's size, all blocks lie in `[0, n)` and `free_nr_pages` counts their pages.

The list operations are related to the family operations of `Ucore.Dyadic`: `delBlock` erases a
block (`Inv.delBlock`), `addBlock` inserts a block whose buddy is absent (`Inv.addBlock`).
-/

namespace Ucore.Buddy

open Ucore.Dyadic

/-- The free blocks: order `o` and start `p` of every entry of `free_area[o]`. -/
def blocks (s : State) : ℕ → ℕ → Prop := fun o p => o < BUDDY_MAX_ORDER ∧ p ∈ s.freeArea o

/-- The free pages: those of the free blocks. -/
def freePages (s : State) : Set ℕ := cover (blocks s)

/-- The pages held by the list of order `o`. -/
def pagesOn (s : State) (o : ℕ) : ℕ := (s.freeArea o).length * 2 ^ o

/-- The invariant of the manager of `n` pages. -/
structure Inv (n : ℕ) (s : State) : Prop where
  canonical : Canonical 10 (blocks s)
  nodup : ∀ o, (s.freeArea o).Nodup
  head : ∀ {o p}, blocks s o p → (s.page p).propertyBit = true ∧ (s.page p).property = 2 ^ o
  inside : ∀ {o p}, blocks s o p → p + 2 ^ o ≤ n
  count : s.freeNrPages = ∑ o ∈ Finset.range BUDDY_MAX_ORDER, pagesOn s o

theorem Inv.freePages_lt {n : ℕ} {s : State} (h : Inv n s) {i : ℕ} (hi : i ∈ freePages s) :
    i < n := by
  obtain ⟨o, p, hb, -, hlt⟩ := hi
  exact lt_of_lt_of_le hlt (h.inside hb)

/-! ### Fields of an updated state -/

section Fields

variable (s : State) (o p : ℕ) (f : Page → Page)

@[simp] theorem modifyPage_freeArea : (s.modifyPage p f).freeArea = s.freeArea := rfl
@[simp] theorem modifyPage_freeNrPages : (s.modifyPage p f).freeNrPages = s.freeNrPages := rfl
@[simp] theorem blocks_modifyPage : blocks (s.modifyPage p f) = blocks s := rfl
@[simp] theorem freePages_modifyPage : freePages (s.modifyPage p f) = freePages s := rfl

theorem modifyPage_page_ne {q : ℕ} (h : q ≠ p) : (s.modifyPage p f).page q = s.page q :=
  Function.update_of_ne h _ _

@[simp] theorem addBlock_freeArea_self :
    (addBlock o p s).freeArea o = p :: s.freeArea o := Function.update_self _ _ _

theorem addBlock_freeArea_ne {o' : ℕ} (h : o' ≠ o) :
    (addBlock o p s).freeArea o' = s.freeArea o' := Function.update_of_ne h _ _

@[simp] theorem addBlock_freeNrPages :
    (addBlock o p s).freeNrPages = s.freeNrPages + 2 ^ o := rfl

theorem addBlock_page_self :
    ((addBlock o p s).page p).propertyBit = true ∧ ((addBlock o p s).page p).property = 2 ^ o := by
  simp [addBlock, State.modifyPage, Page.setPageProperty, Page.setProperty]

theorem addBlock_page_ne {q : ℕ} (h : q ≠ p) : (addBlock o p s).page q = s.page q :=
  Function.update_of_ne h _ _

@[simp] theorem delBlock_freeArea_self :
    (delBlock o p s).freeArea o = (s.freeArea o).erase p := Function.update_self _ _ _

theorem delBlock_freeArea_ne {o' : ℕ} (h : o' ≠ o) :
    (delBlock o p s).freeArea o' = s.freeArea o' := Function.update_of_ne h _ _

@[simp] theorem delBlock_freeNrPages :
    (delBlock o p s).freeNrPages = s.freeNrPages - 2 ^ o := rfl

theorem delBlock_page_ne {q : ℕ} (h : q ≠ p) : (delBlock o p s).page q = s.page q :=
  Function.update_of_ne h _ _

end Fields

/-! ### The lists as a family -/

theorem blocks_addBlock {s : State} {o p : ℕ} (ho : o < BUDDY_MAX_ORDER) :
    blocks (addBlock o p s) = Dyadic.insert (blocks s) o p := by
  funext o' p'
  simp only [blocks, Dyadic.insert, eq_iff_iff]
  by_cases h : o' = o
  · subst h
    simp only [addBlock_freeArea_self, List.mem_cons, ho, true_and]
    tauto
  · simp [addBlock_freeArea_ne s o p h, h]

theorem blocks_delBlock {s : State} {o p : ℕ} (hnd : (s.freeArea o).Nodup) :
    blocks (delBlock o p s) = Dyadic.erase (blocks s) o p := by
  funext o' p'
  simp only [blocks, Dyadic.erase, eq_iff_iff]
  by_cases h : o' = o
  · subst h
    simp only [delBlock_freeArea_self, hnd.mem_erase_iff, true_and]
    tauto
  · simp [delBlock_freeArea_ne s o p h, h]

theorem sum_pagesOn_of_eq_add {s s' : State} {o c : ℕ} (ho : o < BUDDY_MAX_ORDER)
    (hself : pagesOn s' o = pagesOn s o + c) (hne : ∀ o', o' ≠ o → pagesOn s' o' = pagesOn s o') :
    ∑ i ∈ Finset.range BUDDY_MAX_ORDER, pagesOn s' i =
      (∑ i ∈ Finset.range BUDDY_MAX_ORDER, pagesOn s i) + c := by
  rw [← Finset.add_sum_erase _ _ (Finset.mem_range.mpr ho),
    ← Finset.add_sum_erase (Finset.range BUDDY_MAX_ORDER) (pagesOn s) (Finset.mem_range.mpr ho),
    hself, Finset.sum_congr rfl fun i hi => hne i (Finset.ne_of_mem_erase hi)]
  exact Nat.add_right_comm _ _ _

/-- `del_block` on a listed block: the block leaves the family, its pages leave the count. -/
theorem Inv.delBlock {n : ℕ} {s : State} (h : Inv n s) {o p : ℕ} (hb : blocks s o p) :
    Inv n (delBlock o p s) ∧ freePages (delBlock o p s) = freePages s \ block o p ∧
      (Buddy.delBlock o p s).freeNrPages + 2 ^ o = s.freeNrPages := by
  have hfam := blocks_delBlock (p := p) (h.nodup o)
  have hlen : pagesOn s o = pagesOn (Buddy.delBlock o p s) o + 2 ^ o := by
    have := List.length_erase_of_mem hb.2
    have hpos := List.length_pos_of_mem hb.2
    rw [pagesOn, pagesOn, delBlock_freeArea_self, this, Nat.sub_mul, Nat.one_mul,
      Nat.sub_add_cancel (Nat.le_mul_of_pos_left _ hpos)]
  have hsum := sum_pagesOn_of_eq_add hb.1 hlen fun o' ho' => by
    rw [pagesOn, pagesOn, delBlock_freeArea_ne s o p ho']
  refine ⟨⟨?_, fun o' => ?_, fun {o' p'} hb' => ?_, fun hb' => ?_, ?_⟩, ?_, ?_⟩
  · rw [hfam]
    exact h.canonical.erase o p
  · by_cases ho' : o' = o
    · subst ho'
      rw [delBlock_freeArea_self]
      exact (h.nodup o').erase p
    · rw [delBlock_freeArea_ne s o p ho']
      exact h.nodup o'
  · rw [hfam] at hb'
    have hne : p' ≠ p := by
      rintro rfl
      exact hb'.2 (h.canonical.disjoint hb'.1 hb (start_mem_block _ _) (start_mem_block _ _))
    rw [delBlock_page_ne s o p hne]
    exact h.head hb'.1
  · rw [hfam] at hb'
    exact h.inside hb'.1
  · rw [delBlock_freeNrPages, h.count, hsum, Nat.add_sub_cancel]
  · rw [freePages, hfam, h.canonical.cover_erase hb, freePages]
  · rw [delBlock_freeNrPages, h.count, hsum, Nat.add_sub_cancel]

/-- `add_block` on an aligned block of pages that are not free and whose buddy is not listed. -/
theorem Inv.addBlock {n : ℕ} {s : State} (h : Inv n s) {o p : ℕ} (ho : o < BUDDY_MAX_ORDER)
    (hp : 2 ^ o ∣ p) (hn : p + 2 ^ o ≤ n) (hfree : Disjoint (block o p) (freePages s))
    (hbuddy : o < 10 → ¬ blocks s o (p ^^^ 2 ^ o)) :
    Inv n (addBlock o p s) ∧ freePages (addBlock o p s) = freePages s ∪ block o p := by
  have hfam := blocks_addBlock (s := s) (p := p) ho
  have hself : pagesOn (Buddy.addBlock o p s) o = pagesOn s o + 2 ^ o := by
    rw [pagesOn, pagesOn, addBlock_freeArea_self, List.length_cons, Nat.succ_mul]
  have hsum := sum_pagesOn_of_eq_add ho hself
    fun o' ho' => by rw [pagesOn, pagesOn, addBlock_freeArea_ne s o p ho']
  -- no listed block starts at `p`: its first page would be free
  have hnew : ∀ {o' p'}, blocks s o' p' → p' ≠ p := by
    rintro o' p' hb rfl
    exact Set.disjoint_left.mp hfree (start_mem_block o p')
      (block_subset_cover hb (start_mem_block o' p'))
  refine ⟨⟨?_, fun o' => ?_, fun {o' p'} hb' => ?_, fun hb' => ?_, ?_⟩, ?_⟩
  · rw [hfam]
    exact h.canonical.insert (Nat.le_of_lt_succ ho) hp hfree hbuddy
  · by_cases ho' : o' = o
    · subst ho'
      rw [addBlock_freeArea_self]
      exact List.nodup_cons.mpr ⟨fun hmem => hnew ⟨ho, hmem⟩ rfl, h.nodup o'⟩
    · rw [addBlock_freeArea_ne s o p ho']
      exact h.nodup o'
  · rw [hfam] at hb'
    rcases hb' with hb' | ⟨rfl, rfl⟩
    · rw [addBlock_page_ne s o p (hnew hb')]
      exact h.head hb'
    · exact addBlock_page_self s o' p'
  · rw [hfam] at hb'
    rcases hb' with hb' | ⟨rfl, rfl⟩
    · exact h.inside hb'
    · exact hn
  · rw [addBlock_freeNrPages, h.count, hsum]
  · rw [freePages, hfam, cover_insert, freePages]

/-- Writes to a page that heads no free block do not concern the invariant. -/
theorem Inv.modifyPage {n : ℕ} {s : State} (h : Inv n s) {p : ℕ} (f : Page → Page)
    (hp : p ∉ freePages s) : Inv n (s.modifyPage p f) where
  canonical := h.canonical
  nodup := h.nodup
  head {o p'} hb := by
    have hne : p' ≠ p := by
      rintro rfl
      exact hp (block_subset_cover hb (start_mem_block o p'))
    rw [modifyPage_page_ne s p f hne]
    exact h.head hb
  inside := h.inside
  count := h.count

/-- `find_free_block` finds the block of order `order` at `want_idx` if it is free. -/
theorem Inv.findFreeBlock_eq {n : ℕ} {s : State} (h : Inv n s) {o w : ℕ}
    (ho : o < BUDDY_MAX_ORDER) :
    (∀ p, findFreeBlock o w s = some p → p = w ∧ blocks s o w) ∧
      (findFreeBlock o w s = none → ¬ blocks s o w) := by
  constructor
  · intro p hp
    have hmem := List.mem_of_find?_eq_some hp
    have hprop := List.find?_some hp
    simp only [Bool.and_eq_true, decide_eq_true_eq] at hprop
    obtain rfl := hprop.1.1
    exact ⟨rfl, ho, hmem⟩
  · intro hnone hb
    have hhead := h.head hb
    have := List.find?_eq_none.mp hnone w hb.2
    simp [hhead.1, hhead.2] at this

end Ucore.Buddy
