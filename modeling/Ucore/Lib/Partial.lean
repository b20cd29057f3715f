import Ucore.Lib.Fallible

/-!
# Partial correctness

`Yields x Q` says what the result of a program is if it ends without an error.  There is a rule for each
form of a program, so that a proof follows the text of the program; `Yields.bind` takes what is known of
the first part into the second.
-/

namespace Ucore.Fallible

variable {ε α β : Type _} {x y : Except ε α} {f : α → Except ε β} {P Q : α → Prop} {R : β → Prop} {a : α}

/-- If the program ends without an error, `Q` holds of its result. -/
def Yields (x : Except ε α) (Q : α → Prop) : Prop := ∀ a, x = .ok a → Q a

theorem Yields.ok (h : Q a) : Yields (.ok a : Except ε α) Q := by
  intro b hb
  cases hb
  exact h

theorem Yields.error (e : ε) : Yields (.error e : Except ε α) Q := by
  intro b hb
  cases hb

/-- Nothing but that it is the result. -/
theorem Yields.self (x : Except ε α) : Yields x fun a => x = .ok a := fun _ h => h

theorem Yields.mono (h : Yields x P) (hPQ : ∀ a, P a → Q a) : Yields x Q := fun a ha => hPQ a (h a ha)

theorem Yields.and (h : Yields x P) (h' : Yields x Q) : Yields x fun a => P a ∧ Q a :=
  fun a ha => ⟨h a ha, h' a ha⟩

theorem Yields.bind (h : Yields x P) (hf : ∀ a, P a → Yields (f a) R) : Yields (x >>= f) R := by
  intro b hb
  obtain ⟨a, ha, hfa⟩ := bind_eq_ok.mp hb
  exact hf a (h a ha) b hfa

theorem Yields.ite {c : Prop} [Decidable c] (h : c → Yields x Q) (h' : ¬ c → Yields y Q) :
    Yields (if c then x else y) Q := by
  by_cases hc : c
  · rw [if_pos hc]
    exact h hc
  · rw [if_neg hc]
    exact h' hc

theorem Yields.map {g : α → β} (h : Yields x fun a => R (g a)) : Yields (Except.map g x) R := by
  intro b hb
  obtain ⟨a, ha, rfl⟩ := map_eq_ok.mp hb
  exact h a ha

/-- The condition of a check holds behind it. -/
theorem Yields.require {c : Prop} [Decidable c] {e : ε} : Yields (require c e) fun _ => c := by
  intro u hu
  exact require_eq_ok.mp hu

end Ucore.Fallible
