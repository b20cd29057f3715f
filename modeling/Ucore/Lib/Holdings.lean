import Mathlib.Data.Set.Insert
import Mathlib.Logic.Function.Basic

/-!
# Holdings

Pages are free, lost, or held.  A holder has one page at most, and the books are balanced when no page is
in two places.

`Takes` is what an allocation may do: free pages get holders.  `Gives` is what a release may do: pages
leave their holders, and become free or are lost.  Both keep the books balanced, and so does the hand-over
of a page from one holder to another.
-/

namespace Ucore.Holdings

variable {H P : Type*}

/-- Who holds which page, and the pages that nobody holds. -/
structure Books (H P : Type*) where
  page : H → Option P
  free : Set P
  lost : Set P

/-- The pages `total` are free, lost or held, and each in one way only. -/
structure Books.Balanced (b : Books H P) (total : Set P) : Prop where
  inj : ∀ x y f, b.page x = some f → b.page y = some f → x = y
  free : ∀ x f, b.page x = some f → f ∉ b.free
  lost : ∀ x f, b.page x = some f → f ∉ b.lost
  apart : ∀ f ∈ b.free, f ∉ b.lost
  total : ∀ f, f ∈ total ↔ f ∈ b.free ∨ f ∈ b.lost ∨ ∃ x, b.page x = some f

/-- Free pages get holders. -/
structure Takes (b b' : Books H P) : Prop where
  keep : ∀ x f, b.page x = some f → b'.page x = some f
  fresh : ∀ x f, b'.page x = some f → b.page x = some f ∨ f ∈ b.free
  inj : ∀ x y f, b'.page x = some f → b'.page y = some f → f ∈ b.free → x = y
  free : ∀ f, f ∈ b'.free ↔ f ∈ b.free ∧ ∀ x, b'.page x ≠ some f
  lost : b'.lost = b.lost

/-- Pages leave their holders. -/
structure Gives (b b' : Books H P) : Prop where
  keep : ∀ x f, b'.page x = some f → b.page x = some f
  held : ∀ x f, b.page x = some f → f ∈ b'.free ∨ f ∈ b'.lost ∨ b'.page x = some f
  freed : ∀ f, f ∈ b'.free → f ∈ b.free ∨ ∃ x, b.page x = some f ∧ b'.page x ≠ some f
  gone : ∀ f, f ∈ b'.lost → f ∈ b.lost ∨ ∃ x, b.page x = some f ∧ b'.page x ≠ some f
  mono : b.free ⊆ b'.free
  lost : b.lost ⊆ b'.lost
  apart : ∀ f ∈ b'.free, f ∈ b'.lost → f ∈ b.free ∨ f ∈ b.lost

variable {b b' : Books H P} {total : Set P} {x y : H} {f : P}

/-- **Allocation keeps the books balanced.** -/
theorem Takes.balanced (h : Takes b b') (hb : b.Balanced total) : b'.Balanced total := by
  refine ⟨fun x y f hx hy => ?_, fun x f hx hf => ?_, fun x f hx hf => ?_, fun f hf hlost => ?_,
    fun f => ?_⟩
  · rcases h.fresh x f hx with hx' | hf
    · rcases h.fresh y f hy with hy' | hf
      · exact hb.inj x y f hx' hy'
      · exact h.inj x y f hx hy hf
    · exact h.inj x y f hx hy hf
  · exact ((h.free f).mp hf).2 x hx
  · rw [h.lost] at hf
    rcases h.fresh x f hx with hx' | hfree
    · exact hb.lost x f hx' hf
    · exact hb.apart f hfree hf
  · rw [h.lost] at hlost
    exact hb.apart f ((h.free f).mp hf).1 hlost
  · rw [hb.total, h.free, h.lost]
    constructor
    · rintro (hf | hf | ⟨x, hx⟩)
      · by_cases hheld : ∃ x, b'.page x = some f
        · exact Or.inr (Or.inr hheld)
        · exact Or.inl ⟨hf, fun x hx => hheld ⟨x, hx⟩⟩
      · exact Or.inr (Or.inl hf)
      · exact Or.inr (Or.inr ⟨x, h.keep x f hx⟩)
    · rintro (⟨hf, -⟩ | hf | ⟨x, hx⟩)
      · exact Or.inl hf
      · exact Or.inr (Or.inl hf)
      · rcases h.fresh x f hx with hx' | hf
        · exact Or.inr (Or.inr ⟨x, hx'⟩)
        · exact Or.inl hf

/-- One free page gets a holder. -/
theorem Books.Balanced.takes_one [DecidableEq H] (hb : b.Balanced total) (hx : b.page x = none)
    (hf : f ∈ b.free) : Takes b ⟨Function.update b.page x (some f), b.free \ {f}, b.lost⟩ := by
  have hnew : ∀ y g, Function.update b.page x (some f) y = some g → g ∈ b.free → y = x ∧ g = f := by
    intro y g hy hg
    by_cases hyx : y = x
    · rw [hyx, Function.update_self] at hy
      exact ⟨hyx, (Option.some.inj hy).symm⟩
    · rw [Function.update_of_ne hyx] at hy
      exact absurd hg (hb.free y g hy)
  refine ⟨fun y g hy => ?_, fun y g hy => ?_, fun y z g hy hz hg => ?_, fun g => ?_, rfl⟩
  · have hyx : y ≠ x := by
      rintro rfl
      rw [hx] at hy
      exact nomatch hy
    exact (Function.update_of_ne hyx _ _).trans hy
  · by_cases hyx : y = x
    · dsimp only at hy
      rw [hyx, Function.update_self] at hy
      exact Or.inr (Option.some.inj hy ▸ hf)
    · exact Or.inl ((Function.update_of_ne hyx _ _).symm.trans hy)
  · rw [(hnew y g hy hg).1, (hnew z g hz hg).1]
  · rw [Set.mem_sdiff, Set.mem_singleton_iff]
    refine and_congr_right fun hg => ?_
    constructor
    · intro hne y hy
      exact hne (hnew y g hy hg).2
    · rintro hnone rfl
      exact hnone x (Function.update_self _ _ _)

/-- One holder hands its page to another. -/
theorem Books.Balanced.move [DecidableEq H] (hb : b.Balanced total) (hx : b.page x = some f)
    (hy : b.page y = none) : Books.Balanced
      ⟨Function.update (Function.update b.page x none) y (some f), b.free, b.lost⟩ total := by
  have hxy : x ≠ y := by
    rintro rfl
    rw [hx] at hy
    exact nomatch hy
  -- whoever has a page now had it before, or is `y` and has it from `x`
  have hold : ∀ z g, Function.update (Function.update b.page x none) y (some f) z = some g →
      z = y ∧ g = f ∨ z ≠ x ∧ b.page z = some g := by
    intro z g hz
    by_cases hzy : z = y
    · rw [hzy, Function.update_self] at hz
      exact Or.inl ⟨hzy, (Option.some.inj hz).symm⟩
    · rw [Function.update_of_ne hzy] at hz
      by_cases hzx : z = x
      · rw [hzx, Function.update_self] at hz
        exact nomatch hz
      · rw [Function.update_of_ne hzx] at hz
        exact Or.inr ⟨hzx, hz⟩
  have hheld : ∀ z g, Function.update (Function.update b.page x none) y (some f) z = some g →
      ∃ w, b.page w = some g := by
    intro z g hz
    rcases hold z g hz with ⟨-, rfl⟩ | ⟨-, hz⟩
    · exact ⟨x, hx⟩
    · exact ⟨z, hz⟩
  refine ⟨fun z w g hz hw => ?_, fun z g hz => ?_, fun z g hz => ?_, hb.apart, fun g => ?_⟩
  · rcases hold z g hz with ⟨hzy, hg⟩ | ⟨hzx, hz'⟩
    · rcases hold w g hw with ⟨hwy, -⟩ | ⟨hwx, hw'⟩
      · exact hzy.trans hwy.symm
      · exact absurd (hb.inj w x g hw' (hg ▸ hx)) hwx
    · rcases hold w g hw with ⟨-, hg⟩ | ⟨-, hw'⟩
      · exact absurd (hb.inj z x g hz' (hg ▸ hx)) hzx
      · exact hb.inj z w g hz' hw'
  · obtain ⟨w, hw⟩ := hheld z g hz
    exact hb.free w g hw
  · obtain ⟨w, hw⟩ := hheld z g hz
    exact hb.lost w g hw
  · rw [hb.total]
    refine or_congr Iff.rfl (or_congr Iff.rfl ⟨?_, fun ⟨z, hz⟩ => hheld z g hz⟩)
    rintro ⟨z, hz⟩
    by_cases hzx : z = x
    · rw [hzx, hx] at hz
      exact ⟨y, (Function.update_self _ _ _).trans hz⟩
    · have hzy : z ≠ y := by
        rintro rfl
        rw [hy] at hz
        exact nomatch hz
      refine ⟨z, (Function.update_of_ne hzy _ _).trans ?_⟩
      exact (Function.update_of_ne hzx _ _).trans hz

/-- **Release keeps the books balanced.** -/
theorem Gives.balanced (h : Gives b b') (hb : b.Balanced total) : b'.Balanced total := by
  -- a page that leaves its holder has no other
  have hone : ∀ x f, b'.page x = some f → ¬ ∃ y, b.page y = some f ∧ b'.page y ≠ some f := by
    rintro x f hx ⟨y, hy, hne⟩
    rw [hb.inj y x f hy (h.keep x f hx)] at hne
    exact hne hx
  refine ⟨fun x y f hx hy => hb.inj x y f (h.keep x f hx) (h.keep y f hy), fun x f hx hf => ?_,
    fun x f hx hf => ?_, fun f hf hlost => ?_, fun f => ?_⟩
  · exact (h.freed f hf).elim (hb.free x f (h.keep x f hx)) (hone x f hx)
  · exact (h.gone f hf).elim (hb.lost x f (h.keep x f hx)) (hone x f hx)
  · rcases h.apart f hf hlost with hf' | hlost'
    · rcases h.gone f hlost with hlost' | ⟨x, hx, -⟩
      · exact hb.apart f hf' hlost'
      · exact hb.free x f hx hf'
    · rcases h.freed f hf with hf' | ⟨x, hx, -⟩
      · exact hb.apart f hf' hlost'
      · exact hb.lost x f hx hlost'
  · rw [hb.total]
    constructor
    · rintro (hf | hf | ⟨x, hx⟩)
      · exact Or.inl (h.mono hf)
      · exact Or.inr (Or.inl (h.lost hf))
      · rcases h.held x f hx with hf | hf | hx'
        · exact Or.inl hf
        · exact Or.inr (Or.inl hf)
        · exact Or.inr (Or.inr ⟨x, hx'⟩)
    · rintro (hf | hf | ⟨x, hx⟩)
      · exact (h.freed f hf).imp_right fun hx => Or.inr (hx.imp fun _ hx => hx.1)
      · exact Or.inr ((h.gone f hf).imp_right fun hx => hx.imp fun _ hx => hx.1)
      · exact Or.inr (Or.inr ⟨x, h.keep x f hx⟩)

end Ucore.Holdings
