/-!
# Programs that may fail

The rules for `do` blocks in `Except ε`: a program that ends without an error is the sequence of its
parts, each of which ends without an error.
-/

namespace Ucore.Fallible

variable {ε : Type _} {α β : Type _} {x : Except ε α} {f : α → Except ε β} {a : α} {b : β} {e : ε}

theorem bind_ok (a : α) (f : α → Except ε β) : (Except.ok a >>= f) = f a := rfl

theorem bind_error (e : ε) (f : α → Except ε β) : (Except.error e >>= f) = .error e := rfl

/-- The inversion rule. -/
theorem bind_eq_ok : (x >>= f) = .ok b ↔ ∃ a, x = .ok a ∧ f a = .ok b := by
  cases x with
  | error e => exact ⟨nofun, fun ⟨a, ha, _⟩ => nomatch ha⟩
  | ok a =>
    constructor
    · intro h
      exact ⟨a, rfl, h⟩
    · rintro ⟨a', ha, h⟩
      cases ha
      exact h

/-- The program fails in one of its parts. -/
theorem bind_eq_error : (x >>= f) = .error e ↔ x = .error e ∨ ∃ a, x = .ok a ∧ f a = .error e := by
  cases x with
  | error e' =>
    constructor
    · intro h
      cases h
      exact Or.inl rfl
    · rintro (h | ⟨a, ha, -⟩)
      · cases h
        rfl
      · exact nomatch ha
  | ok a =>
    constructor
    · intro h
      exact Or.inr ⟨a, rfl, h⟩
    · rintro (h | ⟨a', ha, h⟩)
      · exact nomatch h
      · cases ha
        exact h

/-- A program that can be evaluated to the end. -/
theorem exists_ok_of_any {p : α → Bool} (h : x.toOption.any p = true) : ∃ a, x = .ok a ∧ p a = true := by
  cases x with
  | error e => cases h
  | ok a => exact ⟨a, rfl, h⟩

theorem eq_ok_of_toOption (h : x.toOption = some a) : x = .ok a := by
  cases x with
  | error e => cases h
  | ok a => exact congrArg Except.ok (Option.some.inj h)

theorem map_eq_ok {g : α → β} : Except.map g x = .ok b ↔ ∃ a, x = .ok a ∧ g a = b := by
  cases x with
  | error e => exact ⟨nofun, fun ⟨a, ha, _⟩ => nomatch ha⟩
  | ok a => simp [Except.map]

/-- A check that stops the program unless `cond` holds. -/
def require (cond : Prop) [Decidable cond] (e : ε) : Except ε Unit := if cond then .ok () else .error e

theorem require_pos {cond : Prop} [Decidable cond] (h : cond) : require cond e = .ok () := if_pos h

theorem require_eq_ok {cond : Prop} [Decidable cond] {u : Unit} : require cond e = .ok u ↔ cond := by
  by_cases h : cond
  · exact iff_of_true (if_pos h) h
  · exact iff_of_false (fun heq => nomatch (if_neg h).symm.trans heq) h

end Ucore.Fallible
