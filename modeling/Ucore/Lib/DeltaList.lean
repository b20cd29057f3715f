import Mathlib.Data.List.Nodup

/-!
# Lists of differences

A list of entries in the order of their times, each with the difference to the time of the entry
before.  `times b l` has the times themselves, where the first difference counts from `b`.
-/

namespace Ucore.DeltaList

variable {α : Type*} {a : α} {b c d e : ℕ} {l rest : List (α × ℕ)}

def times : ℕ → List (α × ℕ) → List (α × ℕ)
  | _, [] => []
  | b, entry :: rest => (entry.1, b + entry.2) :: times (b + entry.2) rest

/-- The owners of the entries. -/
@[simp] theorem map_fst_times (b : ℕ) (l : List (α × ℕ)) :
    (times b l).map Prod.fst = l.map Prod.fst := by
  induction l generalizing b with
  | nil => rfl
  | cons entry rest ih => rw [times, List.map_cons, List.map_cons, ih]

/-- Later by `c`. -/
theorem times_add (b c : ℕ) (l : List (α × ℕ)) :
    times (b + c) l = (times b l).map fun entry => (entry.1, entry.2 + c) := by
  induction l generalizing b with
  | nil => rfl
  | cons entry rest ih =>
    rw [times, times, List.map_cons, ← ih, Nat.add_right_comm b c]

/-- The difference at the head is in all times. -/
theorem times_succ (b n : ℕ) (a : α) (rest : List (α × ℕ)) : times b ((a, n + 1) :: rest) =
    (times b ((a, n) :: rest)).map fun entry => (entry.1, entry.2 + 1) := by
  rw [times, times, List.map_cons, ← times_add, Nat.add_assoc]

/-- No entry is before the first. -/
theorem le_of_mem_times (h : (a, d) ∈ times b l) : b ≤ d := by
  induction l generalizing b with
  | nil => exact absurd h List.not_mem_nil
  | cons entry rest ih =>
    rcases List.mem_cons.mp h with heq | h
    · rw [(Prod.mk.inj heq).2]
      exact Nat.le_add_right _ _
    · exact Nat.le_trans (Nat.le_add_right _ _) (ih h)

/-- A time of its own for each entry. -/
theorem eq_of_mem_times (hnodup : (l.map Prod.fst).Nodup) (hd : (a, d) ∈ times b l)
    (he : (a, e) ∈ times b l) : d = e := by
  rw [← map_fst_times b] at hnodup
  exact (Prod.mk.inj (List.inj_on_of_nodup_map hnodup hd he rfl)).2

theorem mem_of_mem_times (h : (a, d) ∈ times b l) : a ∈ l.map Prod.fst := by
  rw [← map_fst_times b l]
  exact List.mem_map_of_mem h

theorem exists_time (h : a ∈ l.map Prod.fst) : ∃ d, (a, d) ∈ times b l := by
  rw [← map_fst_times b l] at h
  obtain ⟨⟨a', d⟩, hmem, rfl⟩ := List.mem_map.mp h
  exact ⟨d, hmem⟩

/-- The entries with difference 0 at the head are those whose time has come. -/
theorem mem_times_append (hl : ∀ entry ∈ l, entry.2 = 0) (hrest : ∀ entry ∈ rest.head?, 0 < entry.2) :
    (a, d) ∈ times 0 rest ↔ (a, d) ∈ times 0 (l ++ rest) ∧ 0 < d := by
  induction l with
  | nil =>
    refine (and_iff_left_of_imp ?_).symm
    intro h
    cases rest with
    | nil => exact absurd h List.not_mem_nil
    | cons entry rest =>
      have hpos := hrest entry rfl
      have hle : 0 + entry.2 ≤ d := by
        rcases List.mem_cons.mp h with heq | h
        · exact Nat.le_of_eq (Prod.mk.inj heq).2.symm
        · exact le_of_mem_times h
      omega
  | cons entry l ih =>
    have hzero := hl entry List.mem_cons_self
    rw [ih fun entry hentry => hl entry (List.mem_cons_of_mem _ hentry), List.cons_append, times, hzero,
      List.mem_cons]
    refine and_congr_left fun hpos => (or_iff_right ?_).symm
    intro heq
    have hd := (Prod.mk.inj heq).2
    omega

end Ucore.DeltaList
