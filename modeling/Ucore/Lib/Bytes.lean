import Mathlib.Algebra.Group.Defs
import Mathlib.Data.List.GetD

/-!
# Sequences that are overwritten and padded

The data of a file as a list.  `padTo` fills up with zeros, `writeAt` overwrites a part, and fills up
to its start where this lies behind the end.  Both are characterised by their length and by the
element at each index, where an index behind the end reads as zero (`eq_of_getD`).

`Chunks n` are parts of a sequence with `n` elements each, the last one perhaps with fewer.
-/

namespace Ucore.Bytes

variable {α : Type*} [Zero α] {f g data : List α} {n i pos : ℕ}

def padTo (f : List α) (n : ℕ) : List α := f ++ List.replicate (n - f.length) 0

def writeAt (f : List α) (pos : ℕ) (data : List α) : List α :=
  (padTo f pos).take pos ++ data ++ f.drop (pos + data.length)

theorem eq_of_getD (hlen : f.length = g.length) (h : ∀ i < f.length, f.getD i 0 = g.getD i 0) :
    f = g := by
  refine List.ext_getElem hlen ?_
  intro i hf hg
  have hi := h i hf
  rw [List.getD_eq_getElem _ _ hf, List.getD_eq_getElem _ _ hg] at hi
  exact hi

theorem length_padTo : (padTo f n).length = max f.length n := by
  rw [padTo, List.length_append, List.length_replicate]
  omega

theorem getD_padTo : (padTo f n).getD i 0 = f.getD i 0 := by
  rw [padTo]
  by_cases hi : i < f.length
  · rw [List.getD_append _ _ _ _ hi]
  · have hge := Nat.not_lt.mp hi
    rw [List.getD_append_right _ _ _ _ hge, List.getD_eq_default _ _ hge]
    by_cases hr : i - f.length < n - f.length
    · rw [List.getD_replicate _ hr]
    · rw [List.getD_eq_default]
      rw [List.length_replicate]
      omega

theorem padTo_of_le (h : n ≤ f.length) : padTo f n = f := by
  rw [padTo, Nat.sub_eq_zero_of_le h, List.replicate_zero, List.append_nil]

/-- Padding twice. -/
theorem padTo_padTo {m : ℕ} (h : m ≤ n) : padTo (padTo f m) n = padTo f n := by
  refine eq_of_getD ?_ fun i _ => ?_
  · rw [length_padTo, length_padTo, length_padTo]
    omega
  · rw [getD_padTo, getD_padTo, getD_padTo]

theorem length_writeAt : (writeAt f pos data).length = max f.length (pos + data.length) := by
  rw [writeAt, List.length_append, List.length_append, List.length_take, length_padTo,
    List.length_drop]
  omega

theorem getD_writeAt : (writeAt f pos data).getD i 0 =
    if pos ≤ i ∧ i < pos + data.length then data.getD (i - pos) 0 else f.getD i 0 := by
  have hhead : ((padTo f pos).take pos).length = pos := by
    rw [List.length_take, length_padTo]
    omega
  rw [writeAt, List.append_assoc]
  by_cases hlow : i < pos
  · rw [if_neg (by omega), List.getD_append _ _ _ _ (by rw [hhead]; exact hlow)]
    have htake : ((padTo f pos).take pos).getD i 0 = (padTo f pos).getD i 0 := by
      rw [List.getD_eq_getElem?_getD, List.getD_eq_getElem?_getD, List.getElem?_take_of_lt hlow]
    rw [htake, getD_padTo]
  · rw [List.getD_append_right _ _ _ _ (by rw [hhead]; omega), hhead]
    by_cases hin : i - pos < data.length
    · rw [if_pos (by omega), List.getD_append _ _ _ _ hin]
    · rw [if_neg (by omega), List.getD_append_right _ _ _ _ (by omega),
        List.getD_eq_getElem?_getD, List.getD_eq_getElem?_getD, List.getElem?_drop]
      congr 2
      omega

/-- Two writes, one behind the other. -/
theorem writeAt_writeAt {data' : List α} :
    writeAt (writeAt f pos data) (pos + data.length) data' = writeAt f pos (data ++ data') := by
  refine eq_of_getD ?_ fun i _ => ?_
  · rw [length_writeAt, length_writeAt, length_writeAt, List.length_append]
    omega
  · rw [getD_writeAt, getD_writeAt, getD_writeAt, List.length_append]
    by_cases hlow : i < pos + data.length
    · rw [if_neg (by omega)]
      by_cases hin : pos ≤ i
      · rw [if_pos ⟨hin, hlow⟩, if_pos ⟨hin, by omega⟩, List.getD_append _ _ _ _ (by omega)]
      · rw [if_neg (by omega), if_neg (by omega)]
    · by_cases hin : i < pos + data.length + data'.length
      · rw [if_pos ⟨by omega, hin⟩, if_pos ⟨by omega, by omega⟩, List.getD_append_right _ _ _ _ (by omega)]
        congr 1
        omega
      · rw [if_neg (by omega), if_neg (by omega), if_neg (by omega)]

/-! ### Chunks -/

/-- All parts but the last are full. -/
def Chunks (n : ℕ) : List (List α) → Prop
  | [] | [_] => True
  | c :: c' :: cs => c.length = n ∧ Chunks n (c' :: cs)

variable {c : List α} {cs : List (List α)}

omit [Zero α] in
theorem Chunks.tail (h : Chunks n (c :: cs)) : Chunks n cs := by
  cases cs with
  | nil => trivial
  | cons c' cs => exact h.2

omit [Zero α] in
/-- The number of chunks. -/
theorem Chunks.length (h : Chunks n cs) (hle : ∀ c ∈ cs, c.length ≤ n) (hne : ∀ c ∈ cs, c ≠ []) :
    cs.length = (cs.flatten.length + n - 1) / n := by
  induction cs with
  | nil =>
    by_cases hn : n = 0
    · rw [hn, Nat.div_zero]
      rfl
    · rw [List.flatten_nil, List.length_nil, List.length_nil, Nat.zero_add,
        Nat.div_eq_of_lt (by omega)]
  | cons c cs ih =>
    have ih := ih h.tail (fun c hc => hle c (List.mem_cons_of_mem _ hc))
      fun c hc => hne c (List.mem_cons_of_mem _ hc)
    have hc := hle c List.mem_cons_self
    have hpos := List.length_pos_iff.mpr (hne c List.mem_cons_self)
    rw [List.flatten_cons, List.length_append, List.length_cons]
    cases cs with
    | nil =>
      have hsum : c.length + ([] : List (List α)).flatten.length + n - 1 = c.length - 1 + n := by
        rw [List.flatten_nil, List.length_nil]
        omega
      rw [hsum, Nat.add_div_right _ (by omega), Nat.div_eq_of_lt (by omega)]
      rfl
    | cons c' cs =>
      have hsum : c.length + (c' :: cs).flatten.length + n - 1 = (c' :: cs).flatten.length + n - 1 + n := by
        rw [h.1]
        omega
      rw [hsum, Nat.add_div_right _ (by omega), ← ih]

/-- An element of the sequence is in its chunk. -/
theorem Chunks.getD_flatten (h : Chunks n cs) (hle : ∀ c ∈ cs, c.length ≤ n) (hn : 0 < n) :
    cs.flatten.getD i 0 = (cs.getD (i / n) []).getD (i % n) 0 := by
  induction cs generalizing i with
  | nil => rfl
  | cons c cs ih =>
    have hc := hle c List.mem_cons_self
    rw [List.flatten_cons]
    by_cases hi : i < c.length
    · rw [List.getD_append _ _ _ _ hi, Nat.div_eq_of_lt (by omega), Nat.mod_eq_of_lt (by omega)]
      rfl
    · have hge := Nat.not_lt.mp hi
      rw [List.getD_append_right _ _ _ _ hge]
      cases cs with
      | nil =>
        have hlow : ([c].getD (i / n) []).getD (i % n) 0 = 0 := by
          by_cases hin : i < n
          · rw [Nat.div_eq_of_lt hin, Nat.mod_eq_of_lt hin]
            exact List.getD_eq_default _ _ hge
          · rw [List.getD_eq_default [c]]
            · rfl
            · exact Nat.div_pos (Nat.not_lt.mp hin) hn
        rw [hlow]
        rfl
      | cons c' cs =>
        rw [h.1] at hge ⊢
        rw [ih h.tail fun c hc => hle c (List.mem_cons_of_mem _ hc), Nat.div_eq_sub_div hn hge,
          Nat.mod_eq_sub_mod hge]
        rfl

end Ucore.Bytes
