import Mathlib.Data.Set.Card

/-!
# Reference counts

Keys refer to cells, `m k = some f`, and a counter for each cell says how many keys do.  The counters
are right when `Counts m ref` holds; `Counts.add` and `Counts.drop` change one key.

A counter of one means a single owner (`Counts.eq_of_one`), a counter of zero none
(`Counts.ne_some`): this is what makes an update in place, or the reuse of the cell, invisible to
the other keys.
-/

namespace Ucore.RefCount

variable {K F : Type*} {m : K → Option F} {ref : F → ℕ} {k k' : K}
  {f g : F}

/-- The keys that refer to `f`. -/
def keysOf (m : K → Option F) (f : F) : Set K := {k | m k = some f}

/-- Every counter is the number of keys that refer to its cell. -/
def Counts (m : K → Option F) (ref : F → ℕ) : Prop := ∀ f, (keysOf m f).encard = ref f

/-- Nothing refers to anything. -/
theorem Counts.empty : Counts (fun _ : K => (none : Option F)) fun _ => 0 := by
  intro f
  have hempty : keysOf (fun _ : K => (none : Option F)) f = ∅ := by
    refine Set.eq_empty_iff_forall_notMem.mpr fun _ hk => ?_
    have hsome : none = some f := hk
    cases hsome
  rw [hempty, Set.encard_empty]
  rfl

/-- What refers to the cells determines the counters. -/
theorem Counts.unique {ref' : F → ℕ} (h : Counts m ref) (h' : Counts m ref') : ref = ref' :=
  funext fun f => Nat.cast_injective ((h f).symm.trans (h' f))

theorem Counts.ne_some (h : Counts m ref) (hf : ref f = 0) : m k ≠ some f := by
  intro hk
  have hempty : (keysOf m f).encard = 0 := by
    rw [h f, hf]
    rfl
  rw [Set.encard_eq_zero] at hempty
  exact Set.eq_empty_iff_forall_notMem.mp hempty k hk

theorem Counts.pos (h : Counts m ref) (hk : m k = some f) : 0 < ref f :=
  Nat.pos_of_ne_zero fun hf => h.ne_some hf hk

/-- A counter of one means a single owner. -/
theorem Counts.eq_of_one (h : Counts m ref) (hf : ref f = 1) (hk : m k = some f)
    (hk' : m k' = some f) : k = k' := by
  have hone : (keysOf m f).encard = 1 := by
    rw [h f, hf]
    rfl
  obtain ⟨x, hx⟩ := Set.encard_eq_one.mp hone
  have h₁ : k ∈ ({x} : Set K) := hx ▸ hk
  have h₂ : k' ∈ ({x} : Set K) := hx ▸ hk'
  rw [Set.mem_singleton_iff.mp h₁, Set.mem_singleton_iff.mp h₂]

variable [DecidableEq K]

theorem keysOf_update_of_ne {o : Option F} (hm : m k ≠ some f) (ho : o ≠ some f) :
    keysOf (Function.update m k o) f = keysOf m f := by
  ext x
  by_cases hx : x = k
  · subst hx
    show Function.update m x o x = some f ↔ m x = some f
    rw [Function.update_self]
    exact iff_of_false ho hm
  · show Function.update m k o x = some f ↔ m x = some f
    rw [Function.update_of_ne hx]

variable [DecidableEq F]

/-- A key that refers to nothing is pointed at `f`. -/
theorem Counts.add (h : Counts m ref) (hk : m k = none) :
    Counts (Function.update m k (some f)) (Function.update ref f (ref f + 1)) := by
  intro g
  by_cases hg : g = f
  · subst hg
    have hset : keysOf (Function.update m k (some g)) g = insert k (keysOf m g) := by
      ext x
      show Function.update m k (some g) x = some g ↔ x = k ∨ m x = some g
      by_cases hx : x = k
      · subst hx
        rw [Function.update_self]
        exact iff_of_true rfl (Or.inl rfl)
      · rw [Function.update_of_ne hx]
        exact (or_iff_right hx).symm
    have hnot : k ∉ keysOf m g := fun hmem => by
      have hsome : m k = some g := hmem
      rw [hk] at hsome
      exact nomatch hsome
    rw [hset, Set.encard_insert_of_notMem hnot, h g, Function.update_self]
    rfl
  · have hne : some f ≠ some g := fun he => hg (Option.some.inj he).symm
    rw [keysOf_update_of_ne (by rw [hk]; exact nofun) hne, h g, Function.update_of_ne hg]

/-- A key lets go of `f`. -/
theorem Counts.drop (h : Counts m ref) (hk : m k = some f) :
    Counts (Function.update m k none) (Function.update ref f (ref f - 1)) := by
  intro g
  by_cases hg : g = f
  · subst hg
    have hset : keysOf (Function.update m k none) g = keysOf m g \ {k} := by
      ext x
      show Function.update m k none x = some g ↔ m x = some g ∧ x ≠ k
      by_cases hx : x = k
      · subst hx
        rw [Function.update_self]
        exact iff_of_false nofun fun hc => hc.2 rfl
      · rw [Function.update_of_ne hx]
        exact (and_iff_left hx).symm
    have hcard := Set.encard_sdiff_singleton_add_one (s := keysOf m g) (a := k) hk
    rw [h g] at hcard
    have hpos := h.pos hk
    rw [hset, Function.update_self]
    obtain ⟨n, hn⟩ := Nat.exists_eq_succ_of_ne_zero (Nat.ne_of_gt hpos)
    rw [hn] at hcard ⊢
    exact WithTop.add_right_cancel ENat.one_ne_top hcard
  · have hne : m k ≠ some g := by
      rw [hk]
      exact fun he => hg (Option.some.inj he).symm
    rw [keysOf_update_of_ne hne (by exact nofun), h g, Function.update_of_ne hg]

end Ucore.RefCount
