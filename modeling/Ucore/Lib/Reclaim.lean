import Ucore.Lib.RefCount

/-!
# Reference counts with delayed reclamation

When the count of a cell drops to zero, the process that dropped it sends for the reclaimer, and
until the reclaimer comes others may find the cell and raise its count again.  So several
reclaimers may be on their way to one cell.  A second counter, `rec`, says how many there are, plus
one while the cell is referred to (`Counted`); the reclaimer that brings it to zero is the last, and
then nobody refers to the cell (`Counted.dead`).

A cell not in use has both counters zero, so taking a new cell is the same change of the counters as
finding one without references (`Counted.acquire`), and giving a dead one up is no change at all.
-/

namespace Ucore.RefCount

variable {K P F : Type*} {held : K → Option F} {pending : P → Option F} {ref rec : F → ℕ} {k : K}
  {p : P} {f : F}

/-- `ref` counts the keys of `held`; `rec` counts the reclaimers of `pending`, plus one for a cell in
use. -/
structure Counted (held : K → Option F) (pending : P → Option F) (ref rec : F → ℕ) : Prop where
  refs : Counts held ref
  recs : ∃ pend : F → ℕ, Counts pending pend ∧ ∀ f, rec f = pend f + if 0 < ref f then 1 else 0

theorem Counted.encard (h : Counted held pending ref rec) (f : F) :
    (rec f : ℕ∞) = (keysOf pending f).encard + if 0 < ref f then 1 else 0 := by
  obtain ⟨pend, hpend, hrec⟩ := h.recs
  rw [hrec f, hpend f]
  split <;> rfl

/-- A cell with `rec` zero is dead. -/
theorem Counted.dead (h : Counted held pending ref rec) (hf : rec f = 0) :
    ref f = 0 ∧ (∀ k, held k ≠ some f) ∧ ∀ p, pending p ≠ some f := by
  obtain ⟨pend, hpend, hrec⟩ := h.recs
  have hsum := hrec f
  rw [hf] at hsum
  have hpend0 : pend f = 0 := by omega
  have href0 : ref f = 0 := by
    by_contra hpos
    rw [if_pos (Nat.pos_of_ne_zero hpos)] at hsum
    omega
  exact ⟨href0, fun k => h.refs.ne_some href0, fun p => hpend.ne_some hpend0⟩

/-- A reclaimer on its way finds a positive counter. -/
theorem Counted.pos (h : Counted held pending ref rec) (hp : pending p = some f) : 0 < rec f := by
  obtain ⟨pend, hpend, hrec⟩ := h.recs
  rw [hrec f]
  exact Nat.add_pos_left (hpend.pos hp) _

/-- The only reclaimer on its way to an unreferenced cell finds a counter of one. -/
theorem Counted.eq_one (h : Counted held pending ref rec) (hp : pending p = some f)
    (hlast : ∀ q, pending q = some f → q = p) (hf : ref f = 0) : rec f = 1 := by
  have hset : keysOf pending f = {p} := by
    ext q
    show pending q = some f ↔ q = p
    constructor
    · exact hlast q
    · intro hq
      rw [hq]
      exact hp
  have hcard := h.encard f
  rw [hset, Set.encard_singleton, hf, if_neg (lt_irrefl 0), add_zero] at hcard
  exact_mod_cast hcard

variable [DecidableEq F]

/-- A key is pointed at `f`, which may have had no references. -/
theorem Counted.acquire [DecidableEq K] (h : Counted held pending ref rec) (hk : held k = none) :
    Counted (Function.update held k (some f)) pending (Function.update ref f (ref f + 1))
      (Function.update rec f (if ref f = 0 then rec f + 1 else rec f)) := by
  obtain ⟨pend, hpend, hrec⟩ := h.recs
  refine ⟨h.refs.add hk, pend, hpend, ?_⟩
  intro g
  by_cases hg : g = f
  · subst hg
    rw [Function.update_self, Function.update_self, if_pos (Nat.succ_pos _), hrec g]
    by_cases h0 : ref g = 0
    · rw [if_pos h0, h0, if_neg (lt_irrefl 0)]
    · rw [if_neg h0, if_pos (Nat.pos_of_ne_zero h0)]
  · rw [Function.update_of_ne hg, Function.update_of_ne hg]
    exact hrec g

/-- A key lets go of `f`, to which others refer. -/
theorem Counted.release [DecidableEq K] (h : Counted held pending ref rec) (hk : held k = some f)
    (hf : ref f - 1 ≠ 0) :
    Counted (Function.update held k none) pending (Function.update ref f (ref f - 1)) rec := by
  obtain ⟨pend, hpend, hrec⟩ := h.recs
  refine ⟨h.refs.drop hk, pend, hpend, ?_⟩
  intro g
  by_cases hg : g = f
  · subst hg
    rw [Function.update_self, hrec g, if_pos (by omega), if_pos (by omega)]
  · rw [Function.update_of_ne hg]
    exact hrec g

/-- The last key lets go of `f`, and `p` sends for the reclaimer. -/
theorem Counted.release_last [DecidableEq K] [DecidableEq P] (h : Counted held pending ref rec)
    (hk : held k = some f) (hf : ref f - 1 = 0) (hp : pending p = none) :
    Counted (Function.update held k none) (Function.update pending p (some f))
      (Function.update ref f (ref f - 1)) rec := by
  obtain ⟨pend, hpend, hrec⟩ := h.recs
  refine ⟨h.refs.drop hk, Function.update pend f (pend f + 1), hpend.add hp, ?_⟩
  intro g
  by_cases hg : g = f
  · subst hg
    rw [Function.update_self, Function.update_self, hrec g, if_pos (h.refs.pos hk),
      if_neg (by omega)]
  · rw [Function.update_of_ne hg, Function.update_of_ne hg]
    exact hrec g

/-- The reclaimer sent by `p` arrives. -/
theorem Counted.execute [DecidableEq P] (h : Counted held pending ref rec) (hp : pending p = some f) :
    Counted held (Function.update pending p none) ref (Function.update rec f (rec f - 1)) := by
  obtain ⟨pend, hpend, hrec⟩ := h.recs
  refine ⟨h.refs, Function.update pend f (pend f - 1), hpend.drop hp, ?_⟩
  intro g
  by_cases hg : g = f
  · subst hg
    have hpos := hpend.pos hp
    rw [Function.update_self, Function.update_self, hrec g]
    omega
  · rw [Function.update_of_ne hg, Function.update_of_ne hg]
    exact hrec g

/-- The reclaimer that brings the counter of an unreferenced cell to zero is the only one. -/
theorem Counted.last [DecidableEq P] (h : Counted held pending ref rec) (hp : pending p = some f)
    (hf : rec f - 1 = 0) : keysOf pending f = {p} := by
  have hdead : ∀ q, Function.update pending p none q ≠ some f := by
    apply ((h.execute hp).dead _).2.2
    rw [Function.update_self]
    exact hf
  ext q
  show pending q = some f ↔ q = p
  constructor
  · intro hq
    by_contra hqp
    apply hdead q
    rw [Function.update_of_ne hqp]
    exact hq
  · intro hqp
    rw [hqp]
    exact hp

end Ucore.RefCount
