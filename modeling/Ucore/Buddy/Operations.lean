import Ucore.Buddy.Blocks

/-!
# What the buddy operations do to the free blocks

One specification for each operation of the manager, in terms of the invariant `Inv` and of the set
`freePages`:

* `buddyInitMemmap_spec`: the `n` pages are free, in canonical blocks;
* `buddyAllocPages_some`: a successful request takes one aligned block of `2^need` free pages away;
* `buddyAllocPages_null`: a request answered by `NULL` changes nothing;
* `buddyFreePages_spec`: freeing a range of pages that are not free adds exactly this range.

Each loop (`carve`, `splitDown`, `mergeUp`, `freeLoop`) has its own lemma by induction on the turns
that are left.
-/

namespace Ucore.Buddy

open Ucore.Dyadic

/-- The `m` pages from `base` on. -/
def pageRange (base m : ℕ) : Set ℕ := {i | base ≤ i ∧ i < base + m}

@[simp] theorem mem_pageRange {base m i : ℕ} : i ∈ pageRange base m ↔ base ≤ i ∧ i < base + m :=
  Iff.rfl

@[simp] theorem pageRange_zero (base : ℕ) : pageRange base 0 = ∅ := by
  refine Set.eq_empty_of_forall_notMem fun i hi => ?_
  rw [mem_pageRange] at hi
  omega

/-- A range starts with any block at its start that fits. -/
theorem pageRange_eq_block_union {o base m : ℕ} (h : 2 ^ o ≤ m) :
    pageRange base m = block o base ∪ pageRange (base + 2 ^ o) (m - 2 ^ o) := by
  have hpos := Nat.two_pow_pos o
  ext i
  simp only [mem_pageRange, Set.mem_union, mem_block]
  constructor <;> intro hi <;> omega

/-! ### `buddy_init_memmap` -/

/-- The carving loop keeps its position so aligned that the next block is the left half of its
parent: its buddy is a right neighbour, which is not carved yet. -/
theorem carve_spec (n : ℕ) : ∀ k idx (s : State), n ≤ k + idx → idx ≤ n → Inv n s →
    freePages s = {i | i < idx} → s.freeNrPages = idx →
    (∀ j ≤ 10, 2 ^ j ≤ 2 * (n - idx) → 2 ^ j ∣ idx) →
      Inv n (carve n k idx s) ∧ freePages (carve n k idx s) = {i | i < n} ∧
        (carve n k idx s).freeNrPages = n := by
  intro k
  induction k with
  | zero =>
    intro idx s hk hle hinv hfree hnr _
    obtain rfl : idx = n := by omega
    exact ⟨hinv, hfree, hnr⟩
  | succ k ih =>
    intro idx s hk hle hinv hfree hnr hal
    simp only [carve]
    by_cases hlt : idx < n
    · simp only [if_pos hlt]
      obtain ⟨ho, hfit, hdvd, hstop⟩ := pickLargestOrder_spec idx (Nat.sub_pos_of_lt hlt)
      set o := pickLargestOrder idx (n - idx)
      have hpos := Nat.two_pow_pos o
      have hdisj : Disjoint (block o idx) (freePages s) := by
        rw [hfree]
        refine Set.disjoint_left.mpr fun i hi (hi' : i < idx) => ?_
        have := hi.1
        omega
      have hbuddy : o < 10 → ¬ blocks s o (idx ^^^ 2 ^ o) := by
        intro ho' hb
        have hpar : 2 ^ (o + 1) ∣ idx := hal (o + 1) (by omega) (by rw [pow_succ]; omega)
        have hmem := block_subset_cover hb (start_mem_block o _)
        rw [← freePages, hfree, Set.mem_ofPred_eq] at hmem
        rcases buddy_cases hdvd with ⟨-, he⟩ | ⟨hge, hd, -⟩
        · omega
        · -- both `idx` and `idx - 2^o` would be multiples of `2^(o+1)`
          have := (Nat.dvd_sub hpar hd)
          rw [Nat.sub_sub_self hge] at this
          exact absurd (Nat.le_of_dvd hpos this) (by rw [pow_succ]; omega)
      obtain ⟨hinv', hfree'⟩ := hinv.addBlock (Nat.lt_succ_of_le ho) hdvd (by omega) hdisj hbuddy
      refine ih (idx + 2 ^ o) _ (by omega) (by omega) hinv' ?_ (by simp [hnr]) ?_
      · rw [hfree', hfree]
        ext i
        simp only [Set.mem_union, Set.mem_ofPred_eq, mem_block]
        omega
      · intro j hj hfitj
        by_cases htop : o = 10
        · have h10 : 2 ^ j ∣ 2 ^ o := pow_dvd_pow 2 (by omega)
          exact Nat.dvd_add (h10.trans hdvd) h10
        · have hlt' : ¬ 2 ^ (o + 1) ≤ n - idx := by
            intro hle'
            exact hstop (by omega) hle' (hal (o + 1) (by omega) (by omega))
          have hjo : j ≤ o := by
            by_contra hgt
            have : 2 ^ (o + 1) ≤ 2 ^ j := Nat.pow_le_pow_right (by decide) (by omega)
            rw [pow_succ] at hlt' this
            omega
          have hjd : 2 ^ j ∣ 2 ^ o := pow_dvd_pow 2 hjo
          exact Nat.dvd_add (hjd.trans hdvd) hjd
    · simp only [if_neg hlt]
      obtain rfl : idx = n := by omega
      exact ⟨hinv, hfree, hnr⟩

/-- After `buddy_init` and `buddy_init_memmap(base, n)` all `n` pages are free. -/
theorem buddyInitMemmap_spec (n : ℕ) (page : ℕ → Page) :
    let s := buddyInitMemmap n (buddyInit page)
    Inv n s ∧ freePages s = {i | i < n} ∧ s.freeNrPages = n := by
  refine carve_spec n n 0 _ (by omega) (Nat.zero_le n) ?_ ?_ rfl (fun j _ _ => dvd_zero _)
  · have hnone : ∀ o p, ¬ blocks (buddyInit page) o p := fun o p hb => by
      simpa [buddyInit] using hb.2
    exact ⟨⟨fun hb => (hnone _ _ hb).elim, fun hb => (hnone _ _ hb).elim,
      fun hb => (hnone _ _ hb).elim, fun _ hb => (hnone _ _ hb).elim⟩, fun _ => List.nodup_nil,
      fun hb => (hnone _ _ hb).elim, fun hb => (hnone _ _ hb).elim, by simp [pagesOn, buddyInit]⟩
  · ext i
    simp [freePages, cover, blocks, buddyInit]

/-! ### `buddy_alloc_pages` -/

/-- The splitting loop gives the right halves back and keeps the block of order `need`. -/
theorem splitDown_spec {n need p : ℕ} : ∀ d (s : State), need + d ≤ 10 → 2 ^ (need + d) ∣ p →
    p + 2 ^ (need + d) ≤ n → Inv n s → Disjoint (block (need + d) p) (freePages s) →
      let s' := splitDown need p d s
      Inv n s' ∧ freePages s' = freePages s ∪ (block (need + d) p \ block need p) ∧
        s'.freeNrPages + 2 ^ need = s.freeNrPages + 2 ^ (need + d) := by
  intro d
  induction d with
  | zero =>
    intro s _ _ _ hinv _
    simpa [splitDown] using hinv
  | succ d ih =>
    intro s ho hp hn hinv hdisj
    have hpos := Nat.two_pow_pos (need + d)
    have hp₀ : 2 ^ (need + d) ∣ p := (pow_dvd_pow 2 (by omega)).trans hp
    rw [show need + (d + 1) = need + d + 1 by omega] at hp hn hdisj ⊢
    have hsplit := block_succ (need + d) p
    rw [hsplit, Set.disjoint_union_left] at hdisj
    rw [pow_succ] at hn
    -- the buddy of the right half is the left half, whose pages are not free
    have hbuddy : ¬ blocks s (need + d) ((p + 2 ^ (need + d)) ^^^ 2 ^ (need + d)) := by
      intro hb
      have hx : p ^^^ 2 ^ (need + d) = p + 2 ^ (need + d) := by
        rcases buddy_cases hp₀ with ⟨-, he⟩ | ⟨hge, hd, -⟩
        · exact he
        · have := Nat.dvd_sub hp hd
          rw [Nat.sub_sub_self hge] at this
          exact absurd (Nat.le_of_dvd hpos this) (by rw [pow_succ]; omega)
      rw [← hx, buddy_buddy] at hb
      exact Set.disjoint_left.mp hdisj.1 (start_mem_block _ p)
        (block_subset_cover hb (start_mem_block _ p))
    obtain ⟨hinv', hfree'⟩ := hinv.addBlock (Nat.lt_succ_of_le (by omega : need + d ≤ 10))
      (Nat.dvd_add hp₀ dvd_rfl) (by omega) hdisj.2 fun _ => hbuddy
    have hdisj' : Disjoint (block (need + d) p)
        (freePages (addBlock (need + d) (p + 2 ^ (need + d)) s)) := by
      rw [hfree', Set.disjoint_union_right]
      refine ⟨hdisj.1, Set.disjoint_left.mpr fun i hi hi' => ?_⟩
      have h₁ := hi.2
      have h₂ := hi'.1
      omega
    obtain ⟨hinv'', hfree'', hnr⟩ := ih _ (by omega) hp₀ (by omega) hinv' hdisj'
    refine ⟨hinv'', ?_, ?_⟩
    · rw [splitDown, hfree'', hfree', hsplit]
      have hsub : block need p ⊆ block (need + d) p := by
        intro i hi
        have : 2 ^ need ≤ 2 ^ (need + d) := Nat.pow_le_pow_right (by decide) (by omega)
        exact ⟨hi.1, by have := hi.2; omega⟩
      have hright : Disjoint (block (need + d) (p + 2 ^ (need + d))) (block need p) := by
        refine Set.disjoint_left.mpr fun i hi hi' => ?_
        have h₁ := (hsub hi').2
        have h₂ := hi.1
        omega
      rw [Set.union_sdiff_distrib, hright.sdiff_eq_left, Set.union_assoc, Set.union_comm (block _ _)]
    · rw [splitDown, hnr, addBlock_freeNrPages, pow_succ]
      omega

theorem findOrder_spec (s : State) : ∀ k o, let r := findOrder s k o
    o ≤ r ∧ (k + o ≥ BUDDY_MAX_ORDER → r < BUDDY_MAX_ORDER → s.freeArea r ≠ []) ∧
      (∀ j, o ≤ j → j < r → s.freeArea j = []) := by
  intro k
  induction k with
  | zero =>
    intro o
    simp only [findOrder]
    exact ⟨le_rfl, fun h h' => absurd h' (by omega), fun j h h' => absurd h' (by omega)⟩
  | succ k ih =>
    intro o
    simp only [findOrder]
    by_cases hc : o < BUDDY_MAX_ORDER ∧ s.freeArea o = []
    · simp only [if_pos hc]
      obtain ⟨hle, hne, hempty⟩ := ih (o + 1)
      refine ⟨by omega, fun h => hne (by omega), fun j hj hj' => ?_⟩
      rcases Nat.eq_or_lt_of_le hj with rfl | hlt
      · exact hc.2
      · exact hempty j hlt hj'
    · simp only [if_neg hc]
      exact ⟨le_rfl, fun _ ho he => hc ⟨ho, he⟩, fun j h h' => absurd h' (by omega)⟩

/-- A successful `buddy_alloc_pages(k)` takes the aligned block of `2^need` pages that starts at the
returned page out of the free pages, `need` being `ceil_order(k)`. -/
theorem buddyAllocPages_some {n k p : ℕ} {s s' : State} (h : Inv n s)
    (hs : buddyAllocPages k s = some (some p, s')) :
    ∃ need, ceilOrder k = some need ∧ k ≠ 0 ∧ need ≤ 10 ∧ 2 ^ need ∣ p ∧ Inv n s' ∧
      block need p ⊆ freePages s ∧ freePages s' = freePages s \ block need p ∧
      s'.freeNrPages + 2 ^ need = s.freeNrPages := by
  unfold buddyAllocPages at hs
  by_cases hk : k = 0
  · simp [hk] at hs
  simp only [if_neg hk] at hs
  cases hc : ceilOrder k with
  | none => simp [hc] at hs
  | some need =>
    simp only [hc] at hs
    by_cases hneed : need ≥ BUDDY_MAX_ORDER
    · simp [if_pos hneed] at hs
    simp only [if_neg hneed] at hs
    obtain ⟨hle, -, -⟩ := findOrder_spec s BUDDY_MAX_ORDER need
    set o := findOrder s BUDDY_MAX_ORDER need
    by_cases ho : o ≥ BUDDY_MAX_ORDER
    · simp [if_pos ho] at hs
    simp only [if_neg ho] at hs
    cases hl : s.freeArea o with
    | nil => simp [hl] at hs
    | cons q rest =>
      simp only [hl, Option.some.injEq, Prod.mk.injEq] at hs
      obtain ⟨rfl, rfl⟩ := hs
      have ho' : o < BUDDY_MAX_ORDER := Nat.lt_of_not_ge ho
      have hb : blocks s o q := ⟨ho', by rw [hl]; exact List.mem_cons_self⟩
      have hal := h.canonical.aligned hb
      obtain ⟨hdel, hdelFree, hdelNr⟩ := h.delBlock hb
      have hno : need + (o - need) = o := by omega
      obtain ⟨hinv, hfree, hnr⟩ := splitDown_spec (o - need) (delBlock o q s)
        (by rw [hno]; exact Nat.le_of_lt_succ ho')
        (show 2 ^ (need + (o - need)) ∣ q by rwa [hno]) (by rw [hno]; exact h.inside hb) hdel
        (by rw [hno, hdelFree]; exact Set.disjoint_sdiff_right)
      rw [hno] at hfree hnr
      have hsub : block o q ⊆ freePages s := block_subset_cover hb
      have hneedsub : block need q ⊆ block o q := by
        intro i hi
        have : 2 ^ need ≤ 2 ^ o := Nat.pow_le_pow_right (by decide) hle
        exact ⟨hi.1, by have := hi.2; omega⟩
      have hfree' : freePages (splitDown need q (o - need) (delBlock o q s)) =
          freePages s \ block need q := by
        rw [hfree, hdelFree]
        ext i
        have h₁ := @hsub i
        have h₂ := @hneedsub i
        simp only [Set.mem_union, Set.mem_sdiff]
        tauto
      refine ⟨need, rfl, hk, by have : ¬ need ≥ 11 := hneed; omega,
        (pow_dvd_pow 2 hle).trans hal, ?_, hneedsub.trans hsub, ?_, ?_⟩
      · refine hinv.modifyPage _ ?_
        rw [hfree']
        exact fun hmem => hmem.2 (start_mem_block need q)
      · simpa using hfree'
      · simp only [modifyPage_freeNrPages]
        omega

/-- A request answered by `NULL` leaves the state as it is. -/
theorem buddyAllocPages_null {k : ℕ} {s s' : State}
    (hs : buddyAllocPages k s = some (none, s')) : s' = s := by
  unfold buddyAllocPages at hs
  split at hs
  · simpa using hs.symm
  · split at hs
    · simp at hs
    · split at hs
      · simpa using hs.symm
      · dsimp only at hs
        split at hs
        · simpa using hs.symm
        · split at hs
          · simpa using hs.symm
          · simp at hs

/-! ### `buddy_free_pages` -/

/-- The merging loop turns an aligned block of pages that are not free into the block to list: its
buddy is not free (or it has top order), and together with the remaining free blocks it covers what
was to be covered. -/
theorem mergeUp_spec {n : ℕ} : ∀ k cur bidx (s : State), 10 ≤ k + cur → cur ≤ 10 →
    2 ^ cur ∣ bidx → bidx + 2 ^ cur ≤ n → Inv n s → Disjoint (block cur bidx) (freePages s) →
      let r := mergeUp k cur bidx s
      Inv n r.2.2 ∧ r.1 ≤ 10 ∧ 2 ^ r.1 ∣ r.2.1 ∧ r.2.1 + 2 ^ r.1 ≤ n ∧
        Disjoint (block r.1 r.2.1) (freePages r.2.2) ∧
        (r.1 < 10 → ¬ blocks r.2.2 r.1 (r.2.1 ^^^ 2 ^ r.1)) ∧
        freePages r.2.2 ∪ block r.1 r.2.1 = freePages s ∪ block cur bidx ∧
        r.2.2.freeNrPages + 2 ^ r.1 = s.freeNrPages + 2 ^ cur := by
  intro k
  induction k with
  | zero =>
    intro cur bidx s hk hcur hp hn hinv hdisj
    exact ⟨hinv, hcur, hp, hn, hdisj, fun h => absurd h (by simp only [mergeUp]; omega), rfl, rfl⟩
  | succ k ih =>
    intro cur bidx s hk hcur hp hn hinv hdisj
    rw [mergeUp]
    by_cases hc : cur + 1 < BUDDY_MAX_ORDER
    · have hc' : cur + 1 < 11 := hc
      have hfind := hinv.findFreeBlock_eq (o := cur) (w := buddyIdxOf bidx cur) (by omega)
      rw [if_pos hc]
      cases hf : findFreeBlock cur (buddyIdxOf bidx cur) s with
      | none =>
        simp only [hf]
        exact ⟨hinv, hcur, hp, hn, hdisj, fun _ => hfind.2 hf, trivial, trivial⟩
      | some bp =>
        simp only [hf]
        obtain ⟨rfl, hb⟩ := hfind.1 bp hf
        -- the start of the merged block is the smaller of the two starts
        have hmin : (if bidx < buddyIdxOf bidx cur then bidx else buddyIdxOf bidx cur) =
            min bidx (bidx ^^^ 2 ^ cur) := by
          rw [buddyIdxOf]
          by_cases hlt : bidx < bidx ^^^ 2 ^ cur
          · rw [if_pos hlt, min_eq_left hlt.le]
          · rw [if_neg hlt, min_eq_right (Nat.le_of_not_lt hlt)]
        rw [hmin]
        obtain ⟨hdel, hdelFree, hdelNr⟩ := hinv.delBlock hb
        have hunion := block_union_buddy hp
        have hbsub : block cur (bidx ^^^ 2 ^ cur) ⊆ freePages s := block_subset_cover hb
        have hin := hinv.inside hb
        have hpos := Nat.two_pow_pos cur
        have hinside : min bidx (bidx ^^^ 2 ^ cur) + 2 ^ (cur + 1) ≤ n := by
          rw [pow_succ]
          simp only [buddyIdxOf] at hin
          rcases buddy_cases hp with ⟨-, he⟩ | ⟨hge, -, he⟩ <;> rw [he] at hin ⊢
          · rw [min_eq_left (by omega)]; omega
          · rw [min_eq_right (by omega)]; omega
        have hdisj' : Disjoint (block (cur + 1) (min bidx (bidx ^^^ 2 ^ cur)))
            (freePages (delBlock cur (buddyIdxOf bidx cur) s)) := by
          rw [hdelFree, ← hunion, Set.disjoint_union_left]
          exact ⟨hdisj.mono_right Set.sdiff_subset, Set.disjoint_sdiff_right⟩
        obtain ⟨h₁, h₂, h₃, h₄, h₅, h₆, h₇, h₈⟩ := ih (cur + 1) (min bidx (bidx ^^^ 2 ^ cur))
          (delBlock cur (buddyIdxOf bidx cur) s) (by omega) (by omega) (dvd_min_buddy hp) hinside
          hdel hdisj'
        refine ⟨h₁, h₂, h₃, h₄, h₅, h₆, ?_, ?_⟩
        · rw [h₇, hdelFree, ← hunion, buddyIdxOf]
          ext i
          have := @hbsub i
          simp only [Set.mem_union, Set.mem_sdiff]
          tauto
        · rw [h₈, pow_succ]
          omega
    · rw [if_neg hc]
      have hc' : ¬ cur + 1 < 11 := hc
      exact ⟨hinv, hcur, hp, hn, hdisj, fun h => absurd h (by simp only; omega), rfl, rfl⟩

/-- The outer loop frees the range block by block. -/
theorem freeLoop_spec {n : ℕ} : ∀ k idx left (s : State), left ≤ k → idx + left ≤ n → Inv n s →
    Disjoint (pageRange idx left) (freePages s) →
      let s' := freeLoop k idx left s
      Inv n s' ∧ freePages s' = freePages s ∪ pageRange idx left ∧
        s'.freeNrPages = s.freeNrPages + left := by
  intro k
  induction k with
  | zero =>
    intro idx left s hk _ hinv _
    obtain rfl : left = 0 := by omega
    exact ⟨hinv, by simp [freeLoop], rfl⟩
  | succ k ih =>
    intro idx left s hk hn hinv hdisj
    rw [freeLoop]
    by_cases hleft : left > 0
    · rw [if_pos hleft]
      obtain ⟨ho, hfit, hdvd, -⟩ := pickLargestOrder_spec idx hleft
      set o := pickLargestOrder idx left
      have hpos := Nat.two_pow_pos o
      have hsub : block o idx ⊆ pageRange idx left :=
        fun i hi => ⟨hi.1, by have := hi.2; omega⟩
      obtain ⟨h₁, h₂, h₃, h₄, h₅, h₆, h₇, h₈⟩ := mergeUp_spec (n := n) BUDDY_MAX_ORDER o idx s
        (by simp only [BUDDY_MAX_ORDER]; omega) ho hdvd (by omega) hinv (hdisj.mono_left hsub)
      set r := mergeUp BUDDY_MAX_ORDER o idx s
      obtain ⟨hadd, haddFree⟩ := h₁.addBlock (Nat.lt_succ_of_le h₂) h₃ h₄ h₅ h₆
      have hcov : freePages (addBlock r.1 r.2.1 r.2.2) = freePages s ∪ block o idx := by
        rw [haddFree, h₇]
      have hrest : Disjoint (pageRange (idx + 2 ^ o) (left - 2 ^ o))
          (freePages (addBlock r.1 r.2.1 r.2.2)) := by
        rw [hcov, Set.disjoint_union_right]
        rw [pageRange_eq_block_union hfit, Set.disjoint_union_left] at hdisj
        refine ⟨hdisj.2, Set.disjoint_left.mpr fun i hi hi' => ?_⟩
        · have hi₁ := hi.1
          have hi₂ := hi'.2
          omega
      obtain ⟨hinv', hfree', hnr'⟩ := ih (idx + 2 ^ o) (left - 2 ^ o) _ (by omega) (by omega)
        hadd hrest
      refine ⟨hinv', ?_, ?_⟩
      · rw [hfree', hcov, pageRange_eq_block_union hfit, Set.union_assoc]
      · rw [hnr', addBlock_freeNrPages]
        omega
    · rw [if_neg hleft]
      obtain rfl : left = 0 := by omega
      exact ⟨hinv, by simp, rfl⟩

/-- `buddy_free_pages(base, m)` on pages that are not free adds exactly these pages. -/
theorem buddyFreePages_spec {n base m : ℕ} {s : State} (h : Inv n s)
    (hn : pageRange base m ⊆ {i | i < n}) (hdisj : Disjoint (pageRange base m) (freePages s)) :
    let s' := buddyFreePages base m s
    Inv n s' ∧ freePages s' = freePages s ∪ pageRange base m ∧
      s'.freeNrPages = s.freeNrPages + m := by
  rcases Nat.eq_zero_or_pos m with rfl | hm
  · exact ⟨h, by simp [buddyFreePages, freeLoop], rfl⟩
  · have hlast : base + m - 1 < n := hn ⟨by omega, by omega⟩
    exact freeLoop_spec m base m s le_rfl (by omega) h hdisj

end Ucore.Buddy
