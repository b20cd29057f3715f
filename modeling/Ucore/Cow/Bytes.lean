import Mathlib.Data.List.GetD
import Ucore.Cow.Faults

/-!
# Bytes of user memory

Bytes that the kernel stores into a frame which has no other page are the bytes of this page, and nothing
else changes for any program (`stores_putPage`).
-/

namespace Ucore.Cow

/-- Bytes are stored into a page. -/
def putBytes (d : Bytes) (off : ℕ) (bytes : List UInt8) : Bytes := fun i =>
  if off ≤ i.1 ∧ i.1 < off + bytes.length then bytes.getD (i - off) 0 else d i

/-- Bytes are stored into the frame of a page. -/
def putPage (page off : ℕ) (bytes : List UInt8) (s : State) : State :=
  s.setData page (putBytes (s.data page) off bytes)

/-- What the program reads at an address. -/
def userByte (s : State) (a x : ℕ) : Option UInt8 :=
  (view s (a, x / 4096)).map fun d => d ⟨x % 4096, Nat.mod_lt x (by decide)⟩

/-- The bytes from `x` on are stored, and nothing else changes. -/
structure Stores (s s' : State) (a x : ℕ) (bytes : List UInt8) : Prop where
  pte : ∀ b q, s'.pte b q = s.pte b q
  inside : ∀ i (hi : i < bytes.length), userByte s' a (x + i) = some bytes[i]
  outside : ∀ y, ¬ (x ≤ y ∧ y < x + bytes.length) → userByte s' a y = userByte s a y
  others : ∀ b q, b ≠ a → view s' (b, q) = view s (b, q)

variable {a p f x y : ℕ} {s s' s'' : State} {l l' : List UInt8}

theorem view_eq_some (h : mapping s (a, p) = some f) : view s (a, p) = some (s.data f) :=
  congrArg (Option.map s.data) h

theorem userByte_of_view (h : view s' (a, y / 4096) = view s (a, y / 4096)) :
    userByte s' a y = userByte s a y := by
  rw [userByte, userByte, h]

theorem Stores.nil (s : State) (a x : ℕ) : Stores s s a x [] :=
  ⟨fun _ _ => rfl, fun _ hi => absurd hi (Nat.not_lt_zero _), fun _ _ => rfl, fun _ _ _ => rfl⟩

theorem Stores.append (h : Stores s s' a x l) (h' : Stores s' s'' a (x + l.length) l') :
    Stores s s'' a x (l ++ l') := by
  refine ⟨fun b q => (h'.pte b q).trans (h.pte b q), fun i hi => ?_, fun y hy => ?_,
    fun b q hb => (h'.others b q hb).trans (h.others b q hb)⟩
  · by_cases hil : i < l.length
    · rw [h'.outside _ (by omega), h.inside i hil, List.getElem_append_left hil]
    · rw [List.length_append] at hi
      have hin := h'.inside (i - l.length) (by omega)
      rw [List.getElem_append_right (not_lt.mp hil), ← hin]
      congr 1
      omega
  · rw [List.length_append] at hy
    rw [h'.outside y (by omega), h.outside y (by omega)]

theorem Stores.mapping (h : Stores s s' a x l) : mapping s' = mapping s := by
  funext y
  rw [Cow.mapping, Cow.mapping, h.pte]

/-- **Bytes in one page**, which no other page shares. -/
theorem stores_putPage (off : ℕ) (l : List UInt8) (hf : mapping s (a, p) = some f)
    (halone : ∀ y, mapping s y = some f → y = (a, p))
    (hlen : off + l.length ≤ 4096) : Stores s (putPage f off l s) a (4096 * p + off) l := by
  have hview : view (putPage f off l s) =
      Function.update (view s) (a, p) (some (putBytes (s.data f) off l)) :=
    view_setData_of_alone hf halone
  have hsome := view_eq_some hf
  refine ⟨fun _ _ => rfl, fun i hi => ?_, fun y hy => ?_, fun b q hb => ?_⟩
  · have hpage : (4096 * p + off + i) / 4096 = p := by omega
    have hoff : (4096 * p + off + i) % 4096 = off + i := by omega
    rw [userByte, hpage, hview, Function.update_self]
    show some (putBytes _ _ _ _) = _
    rw [putBytes]
    simp only [hoff]
    rw [if_pos (by omega), Nat.add_sub_cancel_left, List.getD_eq_getElem _ _ hi]
  · rw [userByte, userByte, hview]
    by_cases hp : y / 4096 = p
    · rw [hp, Function.update_self, hsome]
      show some (putBytes _ _ _ _) = some _
      rw [putBytes, if_neg]
      show ¬ (off ≤ y % 4096 ∧ y % 4096 < _)
      omega
    · rw [Function.update_of_ne fun heq => hp (Prod.mk.inj heq).2]
  · rw [hview, Function.update_of_ne fun heq => hb (Prod.mk.inj heq).1]

end Ucore.Cow
