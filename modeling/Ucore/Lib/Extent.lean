import Mathlib.Data.List.Pairwise
import Mathlib.Data.Set.Insert
import Mathlib.Data.Set.Lattice
import Mathlib.Order.CompletePartialOrder
import Mathlib.Order.Interval.Set.LinearOrder

/-!
# Sorted extents

A set of natural numbers kept as a list of extents `(p, k)`, each standing for `[p, p + k)`.  In a
`Sparse` list the extents are nonempty, sorted, disjoint and separated by gaps, and then they are
exactly the maximal runs of the set they cover (`Sparse.mem_iff`).

* **`Sparse.take`** removes the first `k` elements of an extent, and **`Sparse.release`** puts an
  extent into its place and joins it with its neighbours.  Both keep the list sparse.
* **`FirstFit`** and **`BestFit`** say which run a search returns, as properties of the set.
-/

namespace Ucore.Extent

/-- The elements of all extents of a list. -/
def cover (bs : List (ℕ × ℕ)) : Set ℕ := {i | ∃ b ∈ bs, i ∈ Set.Ico b.1 (b.1 + b.2)}

/-- `[p, p + k)` is a run of `S` that cannot be extended on either side. -/
structure MaximalRun (S : Set ℕ) (p k : ℕ) : Prop where
  pos : 0 < k
  subset : Set.Ico p (p + k) ⊆ S
  left : ∀ q, q + 1 = p → q ∉ S
  right : p + k ∉ S

/-- Nonempty extents in increasing order with gaps between them. -/
structure Sparse (bs : List (ℕ × ℕ)) : Prop where
  pos : ∀ b ∈ bs, 0 < b.2
  gaps : bs.Pairwise fun a b => a.1 + a.2 < b.1

variable {bs us vs : List (ℕ × ℕ)} {b : ℕ × ℕ} {p k i : ℕ} {S : Set ℕ}

@[simp] theorem cover_nil : cover [] = ∅ := by
  simp [cover]

@[simp] theorem cover_cons : cover (b :: bs) = Set.Ico b.1 (b.1 + b.2) ∪ cover bs := by
  ext i
  simp [cover]

@[simp] theorem cover_append : cover (us ++ vs) = cover us ∪ cover vs := by
  ext i
  simp only [cover, List.mem_append, or_and_right, exists_or, Set.mem_union, Set.mem_ofPred_eq]

theorem Ico_subset_cover (hb : b ∈ bs) : Set.Ico b.1 (b.1 + b.2) ⊆ cover bs :=
  fun _ hi => ⟨b, hb, hi⟩

/-! ### The maximal runs -/

/-- Two extents of a sparse list are equal or apart. -/
theorem Sparse.apart (h : Sparse bs) {a b : ℕ × ℕ} (ha : a ∈ bs) (hb : b ∈ bs) :
    a = b ∨ a.1 + a.2 < b.1 ∨ b.1 + b.2 < a.1 := by
  have hall := List.Pairwise.forall_of_forall_of_flip (l := bs)
    (R := fun a b : ℕ × ℕ => a = b ∨ a.1 + a.2 < b.1 ∨ b.1 + b.2 < a.1) (fun x _ => Or.inl rfl)
    (h.gaps.imp fun hxy => Or.inr (Or.inl hxy)) (h.gaps.imp fun hxy => Or.inr (Or.inr hxy))
  exact hall ha hb

theorem Sparse.end_not_mem_cover (h : Sparse bs) (hb : b ∈ bs) : b.1 + b.2 ∉ cover bs := by
  rintro ⟨c, hc, hlo, hhi⟩
  have := h.pos b hb
  rcases h.apart hb hc with rfl | hbc | hbc <;> omega

theorem Sparse.pred_not_mem_cover (h : Sparse bs) (hb : b ∈ bs) {q : ℕ} (hq : q + 1 = b.1) :
    q ∉ cover bs := by
  rintro ⟨c, hc, hlo, hhi⟩
  rcases h.apart hb hc with rfl | hbc | hbc <;> omega

/-- A run of covered elements lies inside one extent. -/
theorem Sparse.exists_of_run (h : Sparse bs) (hk : 0 < k) (hr : Set.Ico p (p + k) ⊆ cover bs) :
    ∃ b ∈ bs, b.1 ≤ p ∧ p + k ≤ b.1 + b.2 := by
  obtain ⟨b, hb, hlo, hhi⟩ := hr ⟨le_rfl, by omega⟩
  refine ⟨b, hb, hlo, ?_⟩
  by_contra hlt
  exact h.end_not_mem_cover hb (hr ⟨by omega, by omega⟩)

/-- **The extents of a sparse list are the maximal runs of its cover.** -/
theorem Sparse.mem_iff (h : Sparse bs) : (p, k) ∈ bs ↔ MaximalRun (cover bs) p k := by
  constructor
  · intro hb
    exact ⟨h.pos _ hb, Ico_subset_cover hb, fun q hq => h.pred_not_mem_cover hb hq,
      h.end_not_mem_cover hb⟩
  · intro hr
    obtain ⟨b, hb, hlo, hhi⟩ := h.exists_of_run hr.pos hr.subset
    have hsub := Ico_subset_cover hb
    have hp : b.1 = p := by
      by_contra hne
      exact hr.left (p - 1) (by omega) (hsub ⟨by omega, by omega⟩)
    have hk : b.2 = k := by
      by_contra hne
      exact hr.right (hsub ⟨by omega, by omega⟩)
    rw [← hp, ← hk]
    exact hb

/-! ### Splitting a list -/

theorem sparse_append :
    Sparse (us ++ vs) ↔ Sparse us ∧ Sparse vs ∧ ∀ a ∈ us, ∀ b ∈ vs, a.1 + a.2 < b.1 := by
  constructor
  · rintro ⟨hp, hg⟩
    obtain ⟨hu, hv, huv⟩ := List.pairwise_append.mp hg
    exact ⟨⟨fun b hb => hp b (List.mem_append_left vs hb), hu⟩,
      ⟨fun b hb => hp b (List.mem_append_right us hb), hv⟩, huv⟩
  · rintro ⟨hu, hv, huv⟩
    refine ⟨fun b hb => ?_, List.pairwise_append.mpr ⟨hu.gaps, hv.gaps, huv⟩⟩
    rcases List.mem_append.mp hb with hb | hb
    · exact hu.pos b hb
    · exact hv.pos b hb

theorem sparse_cons :
    Sparse (b :: vs) ↔ 0 < b.2 ∧ Sparse vs ∧ ∀ a ∈ vs, b.1 + b.2 < a.1 := by
  constructor
  · rintro ⟨hp, hg⟩
    exact ⟨hp b List.mem_cons_self, ⟨fun a ha => hp a (List.mem_cons_of_mem b ha),
      (List.pairwise_cons.mp hg).2⟩, (List.pairwise_cons.mp hg).1⟩
  · rintro ⟨hb, hv, hbv⟩
    refine ⟨fun a ha => ?_, List.pairwise_cons.mpr ⟨hbv, hv.gaps⟩⟩
    rcases List.mem_cons.mp ha with rfl | ha
    · exact hb
    · exact hv.pos a ha

theorem sparse_nil : Sparse [] := ⟨by simp, List.Pairwise.nil⟩

/-! ### Taking from an extent -/

/-- What is left of `b` without its first `k` elements. -/
def rest (b : ℕ × ℕ) (k : ℕ) : List (ℕ × ℕ) := if b.2 > k then [(b.1 + k, b.2 - k)] else []

theorem cover_rest (hk : k ≤ b.2) : cover (rest b k) = Set.Ico (b.1 + k) (b.1 + b.2) := by
  unfold rest
  by_cases h : b.2 > k
  · rw [if_pos h, cover_cons, cover_nil, Set.union_empty, show b.1 + k + (b.2 - k) = b.1 + b.2 by
      omega]
  · rw [if_neg h, cover_nil, Set.Ico_eq_empty (by omega)]

theorem Sparse.take (h : Sparse (us ++ b :: vs)) : Sparse (us ++ rest b k ++ vs) := by
  obtain ⟨hu, hbv, hsep⟩ := sparse_append.mp h
  obtain ⟨hb, hv, hgap⟩ := sparse_cons.mp hbv
  unfold rest
  by_cases hk : b.2 > k
  · rw [if_pos hk, List.append_assoc, List.singleton_append]
    refine sparse_append.mpr ⟨hu, sparse_cons.mpr ⟨by simp only; omega, hv, fun a ha => ?_⟩,
      fun a ha c hc => ?_⟩
    · have := hgap a ha
      simp only
      omega
    · have hab := hsep a ha b List.mem_cons_self
      rcases List.mem_cons.mp hc with rfl | hc
      · simp only
        omega
      · exact hsep a ha c (List.mem_cons_of_mem b hc)
  · rw [if_neg hk, List.append_nil]
    exact sparse_append.mpr ⟨hu, hv, fun a ha c hc => hsep a ha c (List.mem_cons_of_mem b hc)⟩

theorem Sparse.cover_take (h : Sparse (us ++ b :: vs)) (hk : k ≤ b.2) :
    cover (us ++ rest b k ++ vs) = cover (us ++ b :: vs) \ Set.Ico b.1 (b.1 + k) := by
  obtain ⟨hu, hbv, hsep⟩ := sparse_append.mp h
  obtain ⟨hb, hv, hgap⟩ := sparse_cons.mp hbv
  have hleft : ∀ i ∈ cover us, i < b.1 := by
    rintro i ⟨a, ha, -, hi⟩
    have := hsep a ha b List.mem_cons_self
    omega
  have hright : ∀ i ∈ cover vs, b.1 + b.2 < i := by
    rintro i ⟨a, ha, hi, -⟩
    have := hgap a ha
    omega
  ext i
  simp only [cover_append, cover_cons, cover_rest hk, Set.mem_union, Set.mem_sdiff, Set.mem_Ico]
  constructor
  · rintro ((hi | hi) | hi)
    · exact ⟨Or.inl hi, by have := hleft i hi; omega⟩
    · exact ⟨Or.inr (Or.inl (by omega)), by omega⟩
    · exact ⟨Or.inr (Or.inr hi), by have := hright i hi; omega⟩
  · rintro ⟨hi | hi | hi, hn⟩
    · exact Or.inl (Or.inl hi)
    · exact Or.inl (Or.inr (by omega))
    · exact Or.inr hi

/-! ### Releasing an extent between two lists -/

/-- Join `b` to the last extent of `us` when that ends where `b` starts. -/
def joinPrev (us : List (ℕ × ℕ)) (b : ℕ × ℕ) : List (ℕ × ℕ) × (ℕ × ℕ) :=
  match us.getLast? with
  | some c => if c.1 + c.2 = b.1 then (us.dropLast, (c.1, c.2 + b.2)) else (us, b)
  | none => (us, b)

/-- Join the first extent of `vs` to `b` when it starts where `b` ends. -/
def joinNext (b : ℕ × ℕ) : List (ℕ × ℕ) → (ℕ × ℕ) × List (ℕ × ℕ)
  | c :: vs => if b.1 + b.2 = c.1 then ((b.1, b.2 + c.2), vs) else (b, c :: vs)
  | [] => (b, [])

/-- Put `b` between `us` and `vs` and join it with its neighbours. -/
def release (us : List (ℕ × ℕ)) (b : ℕ × ℕ) (vs : List (ℕ × ℕ)) : List (ℕ × ℕ) :=
  let l := joinPrev us b
  let r := joinNext l.2 vs
  l.1 ++ r.1 :: r.2

theorem Ico_union_of_eq {a b c d : ℕ} (h : b = c) (hab : a ≤ b) (hcd : c ≤ d) :
    Set.Ico a b ∪ Set.Ico c d = Set.Ico a d := by
  subst h
  exact Set.Ico_union_Ico_eq_Ico hab hcd

/-- Joining on the left: the extents stay sparse and the joined one is now apart from them. -/
theorem joinPrev_spec (hu : Sparse us) (hub : ∀ a ∈ us, a.1 + a.2 ≤ b.1) (hb : 0 < b.2) :
    Sparse ((joinPrev us b).1 ++ [(joinPrev us b).2]) ∧
      cover ((joinPrev us b).1 ++ [(joinPrev us b).2]) = cover us ∪ Set.Ico b.1 (b.1 + b.2) ∧
      (joinPrev us b).2.1 + (joinPrev us b).2.2 = b.1 + b.2 := by
  rcases List.eq_nil_or_concat us with rfl | ⟨us, c, rfl⟩
  · have : joinPrev [] b = ([], b) := rfl
    rw [this]
    exact ⟨sparse_cons.mpr ⟨hb, sparse_nil, by simp⟩, by simp, rfl⟩
  rw [List.concat_eq_append] at hu hub ⊢
  obtain ⟨hu', -, hsep⟩ := sparse_append.mp hu
  have hcb := hub c (by simp)
  have hjoin : joinPrev (us ++ [c]) b =
      if c.1 + c.2 = b.1 then (us, (c.1, c.2 + b.2)) else (us ++ [c], b) := by
    simp only [joinPrev, List.getLast?_append, List.getLast?_singleton, Option.some_or,
      List.dropLast_concat]
  rw [hjoin]
  by_cases h : c.1 + c.2 = b.1
  · simp only [if_pos h]
    refine ⟨sparse_append.mpr ⟨hu', sparse_cons.mpr ⟨by omega, sparse_nil, by simp⟩,
      fun a ha d hd => ?_⟩, ?_, by omega⟩
    · obtain rfl := List.mem_singleton.mp hd
      exact hsep a ha c (List.mem_singleton.mpr rfl)
    · simp only [cover_append, cover_cons, cover_nil, Set.union_empty, Set.union_assoc]
      rw [Ico_union_of_eq h (by omega) (by omega), show b.1 + b.2 = c.1 + (c.2 + b.2) by omega]
  · simp only [if_neg h]
    refine ⟨sparse_append.mpr ⟨hu, sparse_cons.mpr ⟨hb, sparse_nil, by simp⟩,
      fun a ha d hd => ?_⟩, by simp [Set.union_assoc], trivial⟩
    obtain rfl := List.mem_singleton.mp hd
    rcases List.mem_append.mp ha with ha' | ha'
    · have := hsep a ha' c (List.mem_singleton.mpr rfl)
      omega
    · obtain rfl := List.mem_singleton.mp ha'
      omega

/-- Joining on the right. -/
theorem joinNext_spec (hv : Sparse vs) (hbv : ∀ a ∈ vs, b.1 + b.2 ≤ a.1) (hb : 0 < b.2) :
    Sparse ((joinNext b vs).1 :: (joinNext b vs).2) ∧
      cover ((joinNext b vs).1 :: (joinNext b vs).2) = Set.Ico b.1 (b.1 + b.2) ∪ cover vs ∧
      (joinNext b vs).1.1 = b.1 := by
  cases vs with
  | nil => exact ⟨sparse_cons.mpr ⟨hb, hv, by simp [joinNext]⟩, by simp [joinNext], rfl⟩
  | cons c vs =>
    obtain ⟨hc, hv', hgap⟩ := sparse_cons.mp hv
    rw [joinNext]
    by_cases h : b.1 + b.2 = c.1
    · simp only [if_pos h]
      refine ⟨sparse_cons.mpr ⟨by simp only; omega, hv', fun a ha => ?_⟩, ?_, trivial⟩
      · have := hgap a ha
        simp only
        omega
      · rw [cover_cons, cover_cons, ← Set.union_assoc, Ico_union_of_eq h (by omega) (by omega),
          show c.1 + c.2 = b.1 + (b.2 + c.2) by omega]
    · simp only [if_neg h]
      have hlt := hbv c List.mem_cons_self
      refine ⟨sparse_cons.mpr ⟨hb, hv, fun a ha => ?_⟩, cover_cons, trivial⟩
      rcases List.mem_cons.mp ha with rfl | ha
      · omega
      · have := hgap a ha
        omega

/-- The new extent lies between the two lists. -/
structure Between (us : List (ℕ × ℕ)) (b : ℕ × ℕ) (vs : List (ℕ × ℕ)) : Prop where
  pos : 0 < b.2
  left : ∀ a ∈ us, a.1 + a.2 ≤ b.1
  right : ∀ a ∈ vs, b.1 + b.2 ≤ a.1

/-- The place of a range that no extent meets. -/
theorem Sparse.exists_between (hk : 0 < k) : ∀ {bs : List (ℕ × ℕ)}, Sparse bs →
    Disjoint (Set.Ico p (p + k)) (cover bs) → ∃ us vs, bs = us ++ vs ∧ Between us (p, k) vs
  | [], _, _ => ⟨[], [], rfl, hk, by simp, by simp⟩
  | c :: bs, hs, hd => by
    obtain ⟨hc, hs', hgap⟩ := sparse_cons.mp hs
    rw [cover_cons, Set.disjoint_union_right] at hd
    have hdc := Set.disjoint_left.mp hd.1
    by_cases hlt : p < c.1
    · have hle : p + k ≤ c.1 := by
        by_contra hgt
        exact hdc (a := c.1) ⟨by omega, by omega⟩ ⟨le_rfl, by omega⟩
      refine ⟨[], c :: bs, rfl, hk, by simp, fun a ha => ?_⟩
      rcases List.mem_cons.mp ha with rfl | ha
      · exact hle
      · have := hgap a ha
        simp only
        omega
    · have hge : c.1 + c.2 ≤ p := by
        by_contra hgt
        exact hdc (a := p) ⟨le_rfl, by omega⟩ ⟨by omega, by omega⟩
      obtain ⟨us, vs, rfl, hb⟩ := Sparse.exists_between hk hs' hd.2
      refine ⟨c :: us, vs, rfl, hk, fun a ha => ?_, hb.right⟩
      rcases List.mem_cons.mp ha with rfl | ha
      · exact hge
      · exact hb.left a ha

/-- **Release.**  The list stays sparse and covers the released extent as well. -/
theorem Sparse.release (h : Sparse (us ++ vs)) (hb : Between us b vs) :
    Sparse (release us b vs) ∧
      cover (Extent.release us b vs) = cover (us ++ vs) ∪ Set.Ico b.1 (b.1 + b.2) := by
  obtain ⟨hu, hv, hsep⟩ := sparse_append.mp h
  obtain ⟨hs₁, hc₁, he₁⟩ := joinPrev_spec hu hb.left hb.pos
  unfold Extent.release
  generalize joinPrev us b = l at hs₁ hc₁ he₁ ⊢
  obtain ⟨us', b'⟩ := l
  simp only at hs₁ hc₁ he₁ ⊢
  obtain ⟨hu', hb', hsep'⟩ := sparse_append.mp hs₁
  have hpos' := (sparse_cons.mp hb').1
  obtain ⟨hs₂, hc₂, he₂⟩ := joinNext_spec hv (fun a ha => he₁ ▸ hb.right a ha) hpos'
  generalize joinNext b' vs = r at hs₂ hc₂ he₂ ⊢
  obtain ⟨b'', vs'⟩ := r
  simp only at hs₂ hc₂ he₂ ⊢
  have hend : ∀ a ∈ us', a.1 + a.2 < b''.1 := fun a ha => by
    rw [he₂]
    exact hsep' a ha b' (List.mem_singleton.mpr rfl)
  refine ⟨sparse_append.mpr ⟨hu', hs₂, fun a ha c hc => ?_⟩, ?_⟩
  · rcases List.mem_cons.mp hc with rfl | hc
    · exact hend a ha
    · have h₁ := hend a ha
      have h₂ := (sparse_cons.mp hs₂).2.2 c hc
      omega
  · rw [cover_append, hc₂, cover_append]
    rw [cover_append, cover_cons, cover_nil, Set.union_empty] at hc₁
    rw [← Set.union_assoc, hc₁]
    exact Set.union_right_comm _ _ _

/-! ### Fits -/

/-- The lowest maximal run of `S` with at least `k` elements starts at `p`. -/
def FirstFit (S : Set ℕ) (k p : ℕ) : Prop :=
  ∃ l, MaximalRun S p l ∧ k ≤ l ∧ ∀ q l', MaximalRun S q l' → k ≤ l' → p ≤ q

/-- The lowest of the smallest maximal runs of `S` with at least `k` elements starts at `p`. -/
def BestFit (S : Set ℕ) (k p : ℕ) : Prop :=
  ∃ l, MaximalRun S p l ∧ k ≤ l ∧
    ∀ q l', MaximalRun S q l' → k ≤ l' → l < l' ∨ l = l' ∧ p ≤ q

/-- One step of the search for the smallest extent with `k` elements: `b` replaces a larger one. -/
def better (k : ℕ) (best : Option (ℕ × ℕ)) (b : ℕ × ℕ) : Option (ℕ × ℕ) :=
  if k ≤ b.2 ∧ ∀ c ∈ best, b.2 < c.2 then some b else best

/-- `best` is the first of the smallest extents of `bs` with `k` elements. -/
def IsBest (k : ℕ) (bs : List (ℕ × ℕ)) : Option (ℕ × ℕ) → Prop
  | none => ∀ b ∈ bs, b.2 < k
  | some b => ∃ us vs, bs = us ++ b :: vs ∧ k ≤ b.2 ∧ (∀ a ∈ us, k ≤ a.2 → b.2 < a.2) ∧
      ∀ a ∈ vs, k ≤ a.2 → b.2 ≤ a.2

theorem IsBest.better {best : Option (ℕ × ℕ)} (h : IsBest k bs best) (b : ℕ × ℕ) :
    IsBest k (bs ++ [b]) (better k best b) := by
  unfold Extent.better
  cases best with
  | none =>
    by_cases hk : k ≤ b.2
    · rw [if_pos ⟨hk, by simp⟩]
      exact ⟨bs, [], rfl, hk, fun a ha hka => absurd (h a ha) (by omega), by simp⟩
    · rw [if_neg fun hc => hk hc.1]
      intro a ha
      rcases List.mem_append.mp ha with ha | ha
      · exact h a ha
      · obtain rfl := List.mem_singleton.mp ha
        omega
  | some c =>
    obtain ⟨us, vs, rfl, hkc, hu, hv⟩ := h
    by_cases hb : k ≤ b.2 ∧ b.2 < c.2
    · rw [if_pos ⟨hb.1, fun c' hc' => by cases hc'; exact hb.2⟩]
      refine ⟨us ++ c :: vs, [], rfl, hb.1, fun a ha hka => ?_, by simp⟩
      rcases List.mem_append.mp ha with ha | ha
      · exact hb.2.trans (hu a ha hka)
      · rcases List.mem_cons.mp ha with rfl | ha
        · exact hb.2
        · exact hb.2.trans_le (hv a ha hka)
    · rw [if_neg fun hc => hb ⟨hc.1, hc.2 c rfl⟩]
      refine ⟨us, vs ++ [b], by simp, hkc, hu, fun a ha hka => ?_⟩
      rcases List.mem_append.mp ha with ha | ha
      · exact hv a ha hka
      · obtain rfl := List.mem_singleton.mp ha
        omega

theorem IsBest.foldl : ∀ {bs : List (ℕ × ℕ)} (cs : List (ℕ × ℕ))
    {best : Option (ℕ × ℕ)}, IsBest k bs best →
      IsBest k (bs ++ cs) (cs.foldl (Extent.better k) best)
  | _, [], _, h => by rwa [List.append_nil]
  | _, c :: cs, _, h => by
    have := IsBest.foldl cs (h.better c)
    rwa [List.append_assoc] at this

/-- The search over the whole list. -/
theorem isBest_foldl (k : ℕ) (bs : List (ℕ × ℕ)) : IsBest k bs (bs.foldl (better k) none) :=
  IsBest.foldl bs (show IsBest k [] none from fun _ hb => absurd hb List.not_mem_nil)

theorem Sparse.firstFit (h : Sparse (us ++ b :: vs)) (hk : k ≤ b.2) (hu : ∀ a ∈ us, a.2 < k) :
    FirstFit (cover (us ++ b :: vs)) k b.1 := by
  refine ⟨b.2, h.mem_iff.mp (by simp), hk, fun q l' hr hk' => ?_⟩
  have hmem := h.mem_iff.mpr hr
  rcases List.mem_append.mp hmem with hq | hq
  · exact absurd (hu _ hq) (by simp only; omega)
  · rcases List.mem_cons.mp hq with heq | hq
    · rw [← heq]
    · have := (sparse_cons.mp (sparse_append.mp h).2.1).2.2 _ hq
      simp only at this
      omega

theorem Sparse.bestFit (h : Sparse (us ++ b :: vs)) (hk : k ≤ b.2)
    (hu : ∀ a ∈ us, k ≤ a.2 → b.2 < a.2) (hv : ∀ a ∈ vs, k ≤ a.2 → b.2 ≤ a.2) :
    BestFit (cover (us ++ b :: vs)) k b.1 := by
  refine ⟨b.2, h.mem_iff.mp (by simp), hk, fun q l' hr hk' => ?_⟩
  have hmem := h.mem_iff.mpr hr
  rcases List.mem_append.mp hmem with hq | hq
  · exact Or.inl (hu _ hq hk')
  · rcases List.mem_cons.mp hq with heq | hq
    · rw [← heq]
      exact Or.inr ⟨rfl, le_rfl⟩
    · have h₁ := (sparse_cons.mp (sparse_append.mp h).2.1).2.2 _ hq
      have h₂ := hv _ hq hk'
      simp only at h₁ h₂
      omega

/-- No extent has `k` elements: no run of `k` elements is covered. -/
theorem Sparse.no_run (h : Sparse bs) (hk : 0 < k) (hs : ∀ b ∈ bs, b.2 < k) :
    ¬ Set.Ico p (p + k) ⊆ cover bs := by
  intro hr
  obtain ⟨b, hb, hlo, hhi⟩ := h.exists_of_run hk hr
  have := hs b hb
  omega

end Ucore.Extent
