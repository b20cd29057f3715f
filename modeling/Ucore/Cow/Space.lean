import Mathlib.Logic.Function.Basic
import Mathlib.Tactic.Common

/-!
# Address spaces that own their pages

The meaning of the calls on user memory when nothing is shared: every page of every address space
has contents of its own, fork copies the mapped pages at once, a store changes one page.  The
rest of this directory shows that lab5, which shares the pages until one of the owners writes,
cannot be told apart from it.
-/

namespace Ucore.Cow

/-- What every page of every address space reads. -/
abbrev Space (β : Type*) := ℕ × ℕ → Option β

namespace Space

variable {β : Type*}

/-- An eager copy of the mapped pages in `[start, stop)`. -/
def copy (m : Space β) (dst src start stop : ℕ) : Space β := fun x =>
  if x.1 = dst ∧ start ≤ x.2 ∧ x.2 < stop ∧ (m (src, x.2)).isSome then m (src, x.2) else m x

/-- No page is left in `[start, stop)`. -/
def unmap (m : Space β) (a start stop : ℕ) : Space β := fun x =>
  if x.1 = a ∧ start ≤ x.2 ∧ x.2 < stop then none else m x

variable {m : Space β} {a dst src start start' stop : ℕ}

theorem copy_of_le (h : stop ≤ start) : m.copy dst src start stop = m := by
  funext x
  rw [copy, if_neg]
  omega

theorem copy_skip (hle : start ≤ start')
    (hnone : ∀ q, start ≤ q → q < start' → m (src, q) = none) :
    m.copy dst src start stop = m.copy dst src start' stop := by
  funext x
  rw [copy, copy]
  by_cases hx : start ≤ x.2 ∧ x.2 < start'
  · rw [hnone x.2 hx.1 hx.2]
    rw [if_neg (by simp), if_neg (by simp)]
  · have hiff : start ≤ x.2 ↔ start' ≤ x.2 := by omega
    simp only [hiff]

theorem copy_step (hlt : start < stop) (hsome : (m (src, start)).isSome) :
    copy (Function.update m (dst, start) (m (src, start))) dst src (start + 1) stop =
      m.copy dst src start stop := by
  have hsrc : ∀ q, Function.update m (dst, start) (m (src, start)) (src, q) = m (src, q) := by
    intro q
    by_cases hq : (src, q) = (dst, start)
    · rw [hq, Function.update_self, (Prod.mk.inj hq).1]
    · rw [Function.update_of_ne hq]
  funext x
  obtain ⟨b, q⟩ := x
  rw [copy, copy]
  simp only [hsrc]
  by_cases hq : (b, q) = (dst, start)
  · obtain ⟨rfl, rfl⟩ := Prod.mk.inj hq
    rw [if_neg (by omega), if_pos ⟨rfl, Nat.le_refl _, hlt, hsome⟩, Function.update_self]
  · rw [Function.update_of_ne hq]
    have hiff : (b = dst ∧ start + 1 ≤ q ∧ q < stop ∧ (m (src, q)).isSome) ↔
        (b = dst ∧ start ≤ q ∧ q < stop ∧ (m (src, q)).isSome) := by
      refine and_congr_right fun hb => and_congr_left fun _ => ?_
      have : q ≠ start := fun he => hq (by rw [hb, he])
      omega
    simp only [hiff]

theorem unmap_of_le (h : stop ≤ start) : m.unmap a start stop = m := by
  funext x
  rw [unmap, if_neg]
  omega

theorem unmap_skip (hle : start ≤ start')
    (hnone : ∀ q, start ≤ q → q < start' → m (a, q) = none) :
    m.unmap a start stop = m.unmap a start' stop := by
  funext x
  obtain ⟨b, q⟩ := x
  rw [unmap, unmap]
  simp only
  by_cases hx : b = a ∧ start ≤ q ∧ q < start'
  · obtain ⟨rfl, h₁, h₂⟩ := hx
    rw [hnone q h₁ h₂, ite_self, ite_self]
  · have hiff : (b = a ∧ start ≤ q ∧ q < stop) ↔ (b = a ∧ start' ≤ q ∧ q < stop) := by omega
    simp only [hiff]

theorem unmap_step (hlt : start < stop) :
    unmap (Function.update m (a, start) none) a (start + 1) stop =
      m.unmap a start stop := by
  funext x
  obtain ⟨b, q⟩ := x
  rw [unmap, unmap]
  simp only
  by_cases hq : (b, q) = (a, start)
  · obtain ⟨rfl, rfl⟩ := Prod.mk.inj hq
    rw [if_neg (by omega), if_pos ⟨rfl, Nat.le_refl _, hlt⟩, Function.update_self]
  · rw [Function.update_of_ne hq]
    have hne : b = a → q ≠ start := fun hb he => hq (by rw [hb, he])
    have hiff : (b = a ∧ start + 1 ≤ q ∧ q < stop) ↔ (b = a ∧ start ≤ q ∧ q < stop) := by
      refine and_congr_right fun hb => ?_
      have := hne hb
      omega
    simp only [hiff]

/-- What a call does to address spaces that own their pages. -/
inductive Event (β : Type*)
  | fork (dst src start stop : ℕ)
  | newPage (x : ℕ × ℕ) (b : β)
  | store (x : ℕ × ℕ) (g : β → β)
  | unmap (a start stop : ℕ)
  | silent

/-- The effect of an event. -/
def apply (m : Space β) : Event β → Space β
  | .fork dst src start stop => m.copy dst src start stop
  | .newPage x b => Function.update m x (some b)
  | .store x g => Function.update m x ((m x).map g)
  | .unmap a start stop => m.unmap a start stop
  | .silent => m

end Space

end Ucore.Cow
