import Mathlib.Algebra.BigOperators.Group.List.Basic
import Mathlib.Algebra.GroupWithZero.Nat
import Mathlib.Data.List.TakeWhile
import Mathlib.Logic.Function.Iterate

/-!
# Taking turns

Those who want to run stand in a list.  The first one runs until its quantum is used up and goes to the end.

* `Rota.tick` is one unit of time, and `served` who runs in each of the next units.
* `served_round`: the units of one round are the quanta of all, in the order of the list, and after them the
  list is as before; `served_rounds` is the same for any number of rounds.
* `before` is the list of those before `p`, and `ahead` adds up what they have to spend.  It does not matter who
  comes behind.
-/

namespace Ucore.Turns

variable {α : Type*} {quantum : α → ℕ} {left : ℕ} {a : α} {l as : List α}

/-- Those who take turns, with the one that runs in front, and the time that it has left. -/
structure Rota (α : Type*) where
  left : ℕ
  order : List α

/-- A new turn, of the first of the list. -/
def start (quantum : α → ℕ) (l : List α) : Rota α := ⟨((l.head?).map quantum).getD 0, l⟩

theorem start_cons : start quantum (a :: as) = ⟨quantum a, a :: as⟩ := rfl

/-- One unit of time. -/
def Rota.tick (quantum : α → ℕ) : Rota α → Rota α
  | ⟨left, []⟩ => ⟨left, []⟩
  | ⟨left, a :: as⟩ => if 1 < left then ⟨left - 1, a :: as⟩ else start quantum (as ++ [a])

/-- Who runs in each of the next `n` units. -/
def served (quantum : α → ℕ) : ℕ → Rota α → List α
  | 0, _ => []
  | n + 1, t => t.order.head?.toList ++ served quantum n (t.tick quantum)

theorem tick_of_lt (h : 1 < left) : Rota.tick quantum ⟨left, a :: as⟩ = ⟨left - 1, a :: as⟩ := if_pos h

theorem tick_of_le (h : ¬ 1 < left) : Rota.tick quantum ⟨left, a :: as⟩ = start quantum (as ++ [a]) := if_neg h

theorem served_add (m n : ℕ) (t : Rota α) :
    served quantum (m + n) t = served quantum m t ++ served quantum n ((Rota.tick quantum)^[m] t) := by
  induction m generalizing t with
  | zero => rw [Nat.zero_add]; rfl
  | succ m ih => rw [Nat.add_right_comm, served, ih, served, List.append_assoc, Function.iterate_succ_apply]

theorem length_served (n : ℕ) : ∀ t : Rota α, t.order ≠ [] → (served quantum n t).length = n := by
  induction n with
  | zero => exact fun _ _ => rfl
  | succ n ih =>
    rintro ⟨left, order⟩ hne
    cases order with
    | nil => exact absurd rfl hne
    | cons a as =>
      have hnext : (Rota.tick quantum ⟨left, a :: as⟩).order ≠ [] := by
        by_cases hlt : 1 < left
        · rw [tick_of_lt hlt]
          exact List.cons_ne_nil a as
        · rw [tick_of_le hlt]
          exact List.append_ne_nil_of_right_ne_nil as (List.cons_ne_nil a [])
      rw [served, List.length_append, ih _ hnext]
      exact Nat.add_comm 1 n

/-- **One turn.** -/
theorem served_turn : served quantum (left + 1) ⟨left + 1, a :: as⟩ = List.replicate (left + 1) a ∧
    (Rota.tick quantum)^[left + 1] ⟨left + 1, a :: as⟩ = start quantum (as ++ [a]) := by
  induction left with
  | zero => exact ⟨rfl, tick_of_le (lt_irrefl 1)⟩
  | succ left ih =>
    have htick : Rota.tick quantum ⟨left + 1 + 1, a :: as⟩ = ⟨left + 1, a :: as⟩ :=
      tick_of_lt (Nat.lt_add_of_pos_left (Nat.succ_pos left))
    constructor
    · rw [served, htick, ih.1]
      rfl
    · rw [Function.iterate_succ_apply, htick, ih.2]

theorem served_start (hpos : 0 < quantum a) (as : List α) :
    served quantum (quantum a) (start quantum (a :: as)) = List.replicate (quantum a) a ∧
      (Rota.tick quantum)^[quantum a] (start quantum (a :: as)) = start quantum (as ++ [a]) := by
  obtain ⟨n, hn⟩ := Nat.exists_eq_add_one.mpr hpos
  rw [start_cons, hn]
  exact served_turn

/-- The units of a round. -/
def round (quantum : α → ℕ) (l : List α) : List α := l.flatMap fun a => List.replicate (quantum a) a

theorem round_cons : round quantum (a :: as) = List.replicate (quantum a) a ++ round quantum as := rfl

theorem length_round : (round quantum l).length = (l.map quantum).sum := by
  induction l with
  | nil => rfl
  | cons a as ih => rw [round_cons, List.length_append, List.length_replicate, ih, List.map_cons, List.sum_cons]

/-- The turns of the first part of the list. -/
theorem served_part (hpos : ∀ a ∈ l, 0 < quantum a) (m : List α) :
    served quantum (round quantum l).length (start quantum (l ++ m)) = round quantum l ∧
      (Rota.tick quantum)^[(round quantum l).length] (start quantum (l ++ m)) = start quantum (m ++ l) := by
  induction l generalizing m with
  | nil =>
    rw [List.append_nil]
    exact ⟨rfl, rfl⟩
  | cons a as ih =>
    obtain ⟨hserved, hstate⟩ := served_start (hpos a List.mem_cons_self) (as ++ m)
    obtain ⟨hserved', hstate'⟩ := ih (fun b hb => hpos b (List.mem_cons_of_mem a hb)) (m ++ [a])
    rw [List.append_assoc] at hstate
    constructor
    · rw [round_cons, List.length_append, List.length_replicate, served_add, List.cons_append, hserved, hstate,
        hserved']
    · rw [round_cons, List.length_append, List.length_replicate, Nat.add_comm, Function.iterate_add_apply,
        List.cons_append, hstate, hstate', List.append_assoc]
      rfl

/-- **A round.** -/
theorem served_round (hpos : ∀ a ∈ l, 0 < quantum a) :
    served quantum (round quantum l).length (start quantum l) = round quantum l ∧
      (Rota.tick quantum)^[(round quantum l).length] (start quantum l) = start quantum l := by
  have h := served_part hpos []
  rwa [List.append_nil, List.nil_append] at h

/-- **Any number of rounds.** -/
theorem served_rounds (hpos : ∀ a ∈ l, 0 < quantum a) (k : ℕ) :
    served quantum (k * (round quantum l).length) (start quantum l) =
        (List.replicate k (round quantum l)).flatten ∧
      (Rota.tick quantum)^[k * (round quantum l).length] (start quantum l) = start quantum l := by
  induction k with
  | zero =>
    rw [Nat.zero_mul]
    exact ⟨rfl, rfl⟩
  | succ k ih =>
    rw [Nat.succ_mul]
    constructor
    · rw [served_add, ih.1, ih.2, (served_round hpos).1, List.replicate_succ', List.flatten_append]
      rw [List.flatten_singleton]
    · rw [Function.iterate_add_apply, (served_round hpos).2, ih.2]

variable [DecidableEq α] {f g : α → ℕ} {p q : α}

theorem count_round (hnd : l.Nodup) (hp : p ∈ l) : (round quantum l).count p = quantum p := by
  induction l with
  | nil => cases hp
  | cons a as ih =>
    obtain ⟨hnot, hnd'⟩ := List.nodup_cons.mp hnd
    rw [round_cons, List.count_append, List.count_replicate]
    by_cases hpa : a = p
    · subst hpa
      have hzero : (round quantum as).count a = 0 := by
        rw [List.count_eq_zero]
        intro hmem
        obtain ⟨b, hb, hab⟩ := List.mem_flatMap.mp hmem
        exact hnot (List.eq_of_mem_replicate hab ▸ hb)
      simp [hzero]
    · rw [ih hnd' ((List.mem_cons.mp hp).resolve_left (Ne.symm hpa))]
      simp [hpa]

/-- **Shares.**  After any number of units, everyone has had its quantum in each full round, and at most once more. -/
theorem count_served (hpos : ∀ a ∈ l, 0 < quantum a) (hnd : l.Nodup) (hp : p ∈ l) (n : ℕ) :
    let k := n / (round quantum l).length
    k * quantum p ≤ (served quantum n (start quantum l)).count p ∧
      (served quantum n (start quantum l)).count p ≤ (k + 1) * quantum p := by
  intro k
  have hrounds : ∀ k, (served quantum (k * (round quantum l).length) (start quantum l)).count p = k * quantum p := by
    intro k
    rw [(served_rounds hpos k).1, List.count_flatten, List.map_replicate, List.sum_replicate_nat,
      count_round hnd hp]
  have hlen : 0 < (round quantum l).length := by
    refine List.length_pos_of_mem (a := p) (List.mem_flatMap.mpr ⟨p, hp, ?_⟩)
    exact List.mem_replicate.mpr ⟨(hpos p hp).ne', rfl⟩
  have hmono : ∀ m n, m ≤ n →
      (served quantum m (start quantum l)).count p ≤ (served quantum n (start quantum l)).count p := by
    intro m n hmn
    obtain ⟨d, rfl⟩ := Nat.exists_eq_add_of_le hmn
    rw [served_add, List.count_append]
    exact Nat.le_add_right _ _
  rw [← hrounds k, ← hrounds (k + 1)]
  exact ⟨hmono _ _ (Nat.div_mul_le_self n _), hmono _ _ (Nat.lt_mul_of_div_lt (Nat.lt_succ_self _) hlen).le⟩

/-! ### Those ahead -/

/-- Those before `p`. -/
def before (p : α) (l : List α) : List α := l.takeWhile (· ≠ p)

theorem before_head : before p (p :: as) = [] := List.takeWhile_cons_of_neg (by simp)

theorem before_cons (h : a ≠ p) : before p (a :: as) = a :: before p as :=
  List.takeWhile_cons_of_pos (by simpa using h)

theorem before_append (hp : p ∈ l) : before p (l ++ as) = before p l := by
  induction l with
  | nil => cases hp
  | cons a l ih =>
    by_cases hap : a = p
    · rw [hap, List.cons_append, before_head, before_head]
    · rw [List.cons_append, before_cons hap, before_cons hap, ih ((List.mem_cons.mp hp).resolve_left (Ne.symm hap))]

/-- What those before `p` have to spend. -/
def ahead (f : α → ℕ) (p : α) (l : List α) : ℕ := ((before p l).map f).sum

theorem ahead_head : ahead f p (p :: as) = 0 := by
  rw [ahead, before_head]
  rfl

theorem ahead_cons (h : a ≠ p) : ahead f p (a :: as) = f a + ahead f p as := by
  rw [ahead, before_cons h, List.map_cons, List.sum_cons, ahead]

theorem ahead_append (hp : p ∈ l) : ahead f p (l ++ as) = ahead f p l := by
  rw [ahead, before_append hp, ahead]

theorem ahead_congr (h : ∀ a ∈ l, f a = g a) : ahead f p l = ahead g p l := by
  rw [ahead, ahead]
  congr 1
  exact List.map_congr_left fun a ha => h a (List.takeWhile_subset _ ha)

/-- A bound by the number of those ahead. -/
theorem ahead_le {c : ℕ} (h : ∀ a ∈ l, f a ≤ c) : ahead f p l ≤ l.idxOf p * c := by
  induction l with
  | nil => exact Nat.zero_le _
  | cons a as ih =>
    by_cases hap : a = p
    · rw [hap, ahead_head]
      exact Nat.zero_le _
    · rw [ahead_cons hap, List.idxOf_cons_ne _ hap, Nat.succ_mul, Nat.add_comm]
      exact Nat.add_le_add (ih fun b hb => h b (List.mem_cons_of_mem a hb)) (h a List.mem_cons_self)

end Ucore.Turns
