import Mathlib.Data.Nat.Bitwise
import Ucore.Page

/-!
# The buddy page allocator (`lab2/kern/mm/buddy_pmm.c`)

The manager keeps eleven lists `free_area[0..10]`; the list of order `o` holds the head pages of
the free blocks of `2^o` pages.  Pages are named by their index from `buddy_base`, so `page_idx`
and `page_at` are the identity.  A list is the sequence of its entries from `list_next(head)` on:
`list_add` at the head conses, `list_del` erases the entry.

Sizes are `size_t`.  They stay below the number of managed pages except in `ceil_order`, whose
`s <<= 1` does wrap: for `n > 2^63` the variable `s` becomes `0` and the loop never ends.
`ceilOrder` returns `none` there.
-/

namespace Ucore.Buddy

/-- `BUDDY_MAX_ORDER`: the number of orders. -/
def BUDDY_MAX_ORDER : ℕ := 11

/-- The state of the manager: `free_area`, `free_nr_pages`, `buddy_npages` and the managed pages. -/
structure State where
  freeArea : ℕ → List ℕ
  freeNrPages : ℕ
  buddyNpages : ℕ
  page : ℕ → Page

/-- An assignment to the fields of page `p`. -/
def State.modifyPage (s : State) (p : ℕ) (f : Page → Page) : State :=
  { s with page := Function.update s.page p (f (s.page p)) }

/-- The loop of `ceil_order`: `s` is a 64-bit variable, `k` bounds the shifts that keep it nonzero. -/
def ceilOrderFrom (n : ℕ) : ℕ → ℕ → ℕ → Option ℕ
  | 0, _, _ => none
  | k + 1, s, o => if s < n then ceilOrderFrom n k (2 * s % 2 ^ 64) (o + 1) else some o

/-- `ceil_order`: the least `o` with `2^o >= n`; `none` when the loop does not end. -/
def ceilOrder (n : ℕ) : Option ℕ := ceilOrderFrom n 64 1 0

/-- `buddy_idx_of`. -/
def buddyIdxOf (idx order : ℕ) : ℕ := idx ^^^ 2 ^ order

/-- `find_free_block`: walk `free_area[order]` for the free block that starts at `want_idx`. -/
def findFreeBlock (order wantIdx : ℕ) (s : State) : Option ℕ :=
  (s.freeArea order).find? fun p =>
    p = wantIdx && (s.page p).propertyBit && (s.page p).property = 2 ^ order

/-- `add_block`. -/
def addBlock (order p : ℕ) (s : State) : State :=
  let s := s.modifyPage p fun pg => ((pg.setPageRef 0).setProperty (2 ^ order)).setPageProperty
  { s with
    freeArea := Function.update s.freeArea order (p :: s.freeArea order)
    freeNrPages := s.freeNrPages + 2 ^ order }

/-- `del_block`. -/
def delBlock (order p : ℕ) (s : State) : State :=
  let s := { s with freeArea := Function.update s.freeArea order ((s.freeArea order).erase p) }
  let s := s.modifyPage p Page.clearPageProperty
  { s with freeNrPages := s.freeNrPages - 2 ^ order }

/-- The loop of `pick_largest_order`; at most `BUDDY_MAX_ORDER` turns. -/
def pickFrom (idx remain : ℕ) : ℕ → ℕ → ℕ
  | 0, o => o
  | k + 1, o =>
    if o + 1 < BUDDY_MAX_ORDER ∧ 2 ^ (o + 1) ≤ remain ∧ idx &&& (2 ^ (o + 1) - 1) = 0 then
      pickFrom idx remain k (o + 1)
    else o

/-- `pick_largest_order`. -/
def pickLargestOrder (idx remain : ℕ) : ℕ := pickFrom idx remain BUDDY_MAX_ORDER 0

/-- `buddy_init`: empty lists, nothing managed. -/
def buddyInit (page : ℕ → Page) : State where
  freeArea := fun _ => []
  freeNrPages := 0
  buddyNpages := 0
  page := page

/-- The carving loop of `buddy_init_memmap`, from `idx` on; every turn takes at least one page, so
`n` turns are enough. -/
def carve (n : ℕ) : ℕ → ℕ → State → State
  | 0, _, s => s
  | k + 1, idx, s =>
    if idx < n then
      let o := pickLargestOrder idx (n - idx)
      carve n k (idx + 2 ^ o) (addBlock o idx s)
    else s

/-- `buddy_init_memmap`: reset the `n` descriptors, then cut `[0, n)` into aligned blocks. -/
def buddyInitMemmap (n : ℕ) (s : State) : State :=
  let s := { s with
    buddyNpages := n
    page := fun i =>
      if i < n then ((s.page i).setProperty 0).clearPageProperty.setPageRef 0 else s.page i }
  carve n n 0 s

/-- The search loop of `buddy_alloc_pages`: the first order from `o` on with a nonempty list. -/
def findOrder (s : State) : ℕ → ℕ → ℕ
  | 0, o => o
  | k + 1, o => if o < BUDDY_MAX_ORDER ∧ s.freeArea o = [] then findOrder s k (o + 1) else o

/-- The splitting loop of `buddy_alloc_pages`: a block of order `need + d` at `idx` is cut down to
order `need`, its right halves going back to the lists. -/
def splitDown (need idx : ℕ) : ℕ → State → State
  | 0, s => s
  | d + 1, s => splitDown need idx d (addBlock (need + d) (idx + 2 ^ (need + d)) s)

/-- `buddy_alloc_pages`: `none` when `ceil_order` does not return, otherwise the returned page
(`none` for `NULL`) and the new state. -/
def buddyAllocPages (n : ℕ) (s : State) : Option (Option ℕ × State) :=
  if n = 0 then some (none, s) else
  match ceilOrder n with
  | none => none
  | some need =>
    if need ≥ BUDDY_MAX_ORDER then some (none, s) else
    let o := findOrder s BUDDY_MAX_ORDER need
    if o ≥ BUDDY_MAX_ORDER then some (none, s) else
    match s.freeArea o with
    | [] => some (none, s)
    | p :: _ =>
      let s := splitDown need p (o - need) (delBlock o p s)
      some (some p, s.modifyPage p fun pg => (pg.clearPageProperty.setProperty 0).setPageRef 0)

/-- The merging loop of `buddy_free_pages`: while the buddy of `(cur, bidx)` is free, take it off
its list and go up one order.  Returns the final `cur` and `bidx`. -/
def mergeUp : ℕ → ℕ → ℕ → State → ℕ × ℕ × State
  | 0, cur, bidx, s => (cur, bidx, s)
  | k + 1, cur, bidx, s =>
    if cur + 1 < BUDDY_MAX_ORDER then
      let other := buddyIdxOf bidx cur
      match findFreeBlock cur other s with
      | none => (cur, bidx, s)
      | some bp => mergeUp k (cur + 1) (if bidx < other then bidx else other) (delBlock cur bp s)
    else (cur, bidx, s)

/-- The outer loop of `buddy_free_pages`; every turn frees at least one page. -/
def freeLoop : ℕ → ℕ → ℕ → State → State
  | 0, _, _, s => s
  | k + 1, idx, left, s =>
    if left > 0 then
      let o := pickLargestOrder idx left
      let (cur, bidx, s) := mergeUp BUDDY_MAX_ORDER o idx s
      freeLoop k (idx + 2 ^ o) (left - 2 ^ o) (addBlock cur bidx s)
    else s

/-- `buddy_free_pages`. -/
def buddyFreePages (base n : ℕ) (s : State) : State := freeLoop n base n s

/-- `buddy_nr_free_pages`. -/
def buddyNrFreePages (s : State) : ℕ := s.freeNrPages

/-! ### The two arithmetic loops -/

theorem ceilOrderFrom_spec (n : ℕ) :
    ∀ k o, k + o = 64 → (0 < o → 2 ^ (o - 1) < n) →
      (n ≤ 2 ^ 63 → ∃ r, ceilOrderFrom n k (2 ^ o % 2 ^ 64) o = some r) ∧
      ∀ r, ceilOrderFrom n k (2 ^ o % 2 ^ 64) o = some r →
        r < 64 ∧ n ≤ 2 ^ r ∧ (0 < r → 2 ^ (r - 1) < n) := by
  intro k
  induction k with
  | zero =>
    intro o ho hlt
    refine ⟨fun hn => ?_, fun r hr => by simp [ceilOrderFrom] at hr⟩
    have := hlt (by omega)
    rw [show o - 1 = 63 by omega] at this
    omega
  | succ k ih =>
    intro o ho hlt
    have hmod : 2 ^ o % 2 ^ 64 = 2 ^ o :=
      Nat.mod_eq_of_lt (Nat.pow_lt_pow_right (by decide) (by omega))
    have hnext : 2 * 2 ^ o % 2 ^ 64 = 2 ^ (o + 1) % 2 ^ 64 := by
      rw [pow_succ 2 o, Nat.mul_comm]
    simp only [ceilOrderFrom, hmod, hnext]
    by_cases h : 2 ^ o < n
    · simp only [if_pos h]
      exact ih (o + 1) (by omega) fun _ => by simpa using h
    · simp only [if_neg h]
      refine ⟨fun _ => ⟨o, rfl⟩, ?_⟩
      rintro r ⟨rfl⟩
      exact ⟨by omega, by omega, hlt⟩

/-- When `ceil_order` returns, it returns the least order whose block holds `n` pages. -/
theorem ceilOrder_spec {n o : ℕ} (h : ceilOrder n = some o) :
    n ≤ 2 ^ o ∧ (0 < o → 2 ^ (o - 1) < n) :=
  ((ceilOrderFrom_spec n 64 0 rfl (by simp)).2 o h).2

/-- `ceil_order` returns for every request up to `2^63`. -/
theorem ceilOrder_isSome {n : ℕ} (hn : n ≤ 2 ^ 63) : ∃ o, ceilOrder n = some o :=
  (ceilOrderFrom_spec n 64 0 rfl (by simp)).1 hn

theorem pickFrom_spec (idx remain : ℕ) :
    ∀ k o, k + o ≥ 10 → o ≤ 10 → 2 ^ o ≤ remain → 2 ^ o ∣ idx →
      let r := pickFrom idx remain k o
      r ≤ 10 ∧ 2 ^ r ≤ remain ∧ 2 ^ r ∣ idx ∧
        (r < 10 → 2 ^ (r + 1) ≤ remain → ¬ 2 ^ (r + 1) ∣ idx) := by
  intro k
  induction k with
  | zero =>
    intro o hk ho hr hd
    exact ⟨ho, hr, hd, fun hlt => by simp only [pickFrom] at hlt; omega⟩
  | succ k ih =>
    intro o hk ho hr hd
    rw [pickFrom]
    by_cases hc : o + 1 < BUDDY_MAX_ORDER ∧ 2 ^ (o + 1) ≤ remain ∧ idx &&& (2 ^ (o + 1) - 1) = 0
    · rw [if_pos hc]
      have hb : o + 1 < 11 := hc.1
      refine ih (o + 1) (by omega) (by omega) hc.2.1 (Nat.dvd_of_mod_eq_zero ?_)
      rw [← Nat.and_two_pow_sub_one_eq_mod]
      exact hc.2.2
    · rw [if_neg hc]
      refine ⟨ho, hr, hd, fun hlt hle hdvd => hc ⟨Nat.succ_lt_succ hlt, hle, ?_⟩⟩
      rw [Nat.and_two_pow_sub_one_eq_mod]
      exact Nat.mod_eq_zero_of_dvd hdvd

/-- `pick_largest_order` returns an order whose block at `idx` is aligned and fits, and stops below
the top order only when the next block would not be aligned or would not fit. -/
theorem pickLargestOrder_spec (idx : ℕ) {remain : ℕ} (h : 0 < remain) :
    let o := pickLargestOrder idx remain
    o ≤ 10 ∧ 2 ^ o ≤ remain ∧ 2 ^ o ∣ idx ∧
      (o < 10 → 2 ^ (o + 1) ≤ remain → ¬ 2 ^ (o + 1) ∣ idx) :=
  pickFrom_spec idx remain BUDDY_MAX_ORDER 0 (by decide) (by decide) h (by simp)

end Ucore.Buddy
