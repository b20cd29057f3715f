import Mathlib.Data.List.Chain
import Mathlib.Data.List.Nodup
import Mathlib.Order.Basic
import Mathlib.Data.Finset.Max

/-!
# Circular singly linked lists in the order of their entries

`Leads next a l z` says that the links lead from `a` through `l` to `z`, and `IsCircle next s t` that
they lead from `s` through `t` back to `s`.  A circle has no head: it can be entered at any of its
entries (`IsCircle.enter`), and a walk that stops at the first entry of a kind stops within one round
if there is such an entry (`IsCircle.walk`).

Entries of a linear order are in order when each links to the next larger one, and the largest to the
smallest (`Ascending`).  A new entry has its place in such a circle (`Ascending.exists_between`), and
linking it there and unlinking an entry keep the order.
-/

namespace Ucore.CircularList

variable {α : Type*}

/-- From `a` the links lead through `l` to `z`. -/
def Leads (next : α → α) : α → List α → α → Prop
  | a, [], z => next a = z
  | a, b :: l, z => next a = b ∧ Leads next b l z

/-- From `s` the links lead once around through `t`. -/
structure IsCircle (next : α → α) (s : α) (t : List α) : Prop where
  nodup : (s :: t).Nodup
  leads : Leads next s t s

variable {next next' : α → α} {a b n s z : α} {l m t : List α}

theorem leads_append : Leads next a (l ++ b :: m) z ↔ Leads next a l b ∧ Leads next b m z := by
  induction l generalizing a with
  | nil => exact Iff.rfl
  | cons c l ih =>
    show next a = c ∧ Leads next c (l ++ b :: m) z ↔ (next a = c ∧ Leads next c l b) ∧ Leads next b m z
    rw [ih, and_assoc]

theorem Leads.congr (h : Leads next a l z) (heq : ∀ x ∈ a :: l, next' x = next x) :
    Leads next' a l z := by
  induction l generalizing a with
  | nil => exact (heq a List.mem_cons_self).trans h
  | cons c l ih =>
    exact ⟨(heq a List.mem_cons_self).trans h.1,
      ih h.2 fun x hx => heq x (List.mem_cons_of_mem a hx)⟩

theorem IsCircle.congr (h : IsCircle next s t) (heq : ∀ x ∈ s :: t, next' x = next x) :
    IsCircle next' s t :=
  ⟨h.nodup, h.leads.congr heq⟩

/-- The links out of an entry lead to an entry. -/
theorem Leads.next_mem (h : Leads next a l z) {x : α} (hx : x ∈ a :: l) : next x ∈ l ++ [z] := by
  induction l generalizing a with
  | nil =>
    rw [List.mem_singleton.1 hx]
    exact List.mem_singleton.2 h
  | cons c l ih =>
    rcases List.mem_cons.1 hx with rfl | hx
    · exact List.mem_cons.2 (.inl h.1)
    · exact List.mem_cons_of_mem c (ih h.2 hx)

theorem IsCircle.next_mem (h : IsCircle next s t) (ha : a ∈ s :: t) : next a ∈ s :: t := by
  have hmem := h.leads.next_mem ha
  rw [List.mem_append, List.mem_singleton] at hmem
  exact List.mem_cons.2 hmem.symm

/-- The same circle, entered at another entry. -/
theorem IsCircle.enter (h : IsCircle next s t) (ha : a ∈ s :: t) :
    ∃ u, IsCircle next a u ∧ (a :: u).Perm (s :: t) := by
  rcases List.mem_cons.1 ha with rfl | ha
  · exact ⟨t, h, .refl _⟩
  · obtain ⟨l, m, rfl⟩ := List.append_of_mem ha
    have hperm : (a :: (m ++ s :: l)).Perm (s :: (l ++ a :: m)) := by
      have hswap : (a :: m ++ s :: l).Perm (s :: l ++ a :: m) := List.perm_append_comm
      exact hswap
    have hleads := leads_append.1 h.leads
    exact ⟨m ++ s :: l, ⟨hperm.nodup_iff.2 h.nodup, leads_append.2 ⟨hleads.2, hleads.1⟩⟩, hperm⟩

/-- Linking `b` between `a` and its successor. -/
theorem IsCircle.link (h : IsCircle next a t) (hb : b ∉ a :: t) (hab : next' a = b)
    (hbn : next' b = next a) (heq : ∀ x ∈ t, next' x = next x) : IsCircle next' a (b :: t) := by
  refine ⟨?_, hab, ?_⟩
  · have hperm : (a :: b :: t).Perm (b :: a :: t) := List.Perm.swap b a t
    exact hperm.nodup_iff.2 (List.nodup_cons.2 ⟨hb, h.nodup⟩)
  · cases t with
    | nil => exact hbn.trans h.leads
    | cons c t => exact ⟨hbn.trans h.leads.1, h.leads.2.congr heq⟩

/-- Unlinking the successor of `a`. -/
theorem IsCircle.unlink (h : IsCircle next a (n :: t)) (han : next' a = next n)
    (heq : ∀ x ∈ t, next' x = next x) : IsCircle next' a t := by
  have hnodup := h.nodup
  have hperm : (a :: n :: t).Perm (n :: a :: t) := List.Perm.swap n a t
  refine ⟨(List.nodup_cons.1 (hperm.nodup_iff.1 hnodup)).2, ?_⟩
  obtain ⟨-, hleads⟩ := h.leads
  cases t with
  | nil => exact han.trans hleads
  | cons c t => exact ⟨han.trans hleads.1, hleads.2.congr heq⟩

/-- The successor is the first of the others. -/
theorem IsCircle.eq_cons (h : IsCircle next a t) (hne : next a ≠ a) : ∃ u, t = next a :: u := by
  cases t with
  | nil => exact absurd h.leads hne
  | cons c t => exact ⟨t, by rw [h.leads.1]⟩

/-! ## Walks -/

/-- Follow the links from `a` to the first entry with `stop`; at most `k` entries are looked at. -/
def walk (next : α → α) (stop : α → Bool) : ℕ → α → Option α
  | 0, _ => none
  | k + 1, a => if stop a then some a else walk next stop k (next a)

/-- A walk that has stopped does not need the turns that are left. -/
theorem walk_mono {stop : α → Bool} {k j : ℕ} (h : walk next stop k a = some b) (hkj : k ≤ j) :
    walk next stop j a = some b := by
  induction k generalizing a j with
  | zero => cases h
  | succ k ih =>
    cases j with
    | zero => exact absurd hkj (Nat.not_succ_le_zero k)
    | succ j =>
      by_cases ha : stop a
      · rw [walk, if_pos ha] at h ⊢
        exact h
      · rw [walk, if_neg ha] at h ⊢
        exact ih h (Nat.le_of_succ_le_succ hkj)

theorem Leads.walk {stop : α → Bool} (h : Leads next a l z) (hstop : ∃ x ∈ a :: l, stop x) {k : ℕ}
    (hk : l.length < k) : ∃ x ∈ a :: l, walk next stop k a = some x ∧ stop x := by
  induction l generalizing a k with
  | nil =>
    obtain ⟨x, hx, hstop⟩ := hstop
    rw [List.mem_singleton.1 hx] at hstop
    cases k with
    | zero => exact absurd hk (Nat.not_lt_zero _)
    | succ k => exact ⟨a, List.mem_cons_self, if_pos hstop, hstop⟩
  | cons c l ih =>
    cases k with
    | zero => exact absurd hk (Nat.not_lt_zero _)
    | succ k =>
      by_cases ha : stop a
      · exact ⟨a, List.mem_cons_self, if_pos ha, ha⟩
      · have hrest : ∃ x ∈ c :: l, stop x := by
          obtain ⟨x, hx, hstop⟩ := hstop
          rcases List.mem_cons.1 hx with rfl | hx
          · exact absurd hstop ha
          · exact ⟨x, hx, hstop⟩
        obtain ⟨x, hx, hwalk, hstop⟩ := ih h.2 hrest (Nat.lt_of_succ_lt_succ hk)
        refine ⟨x, List.mem_cons_of_mem a hx, ?_, hstop⟩
        rw [CircularList.walk, if_neg ha, h.1]
        exact hwalk

/-! ## Order -/

variable [LinearOrder α]

/-- Each entry links to the next larger one, and the largest to the smallest. -/
def Ascending (next : α → α) (l : List α) : Prop :=
  ∀ a ∈ l, (a < next a ∧ ∀ c ∈ l, c ≤ a ∨ next a ≤ c) ∨ (next a ≤ a ∧ ∀ c ∈ l, next a ≤ c ∧ c ≤ a)

/-- `b` belongs between `a` and its successor. -/
def Between (next : α → α) (b a : α) : Prop :=
  (a < b ∧ b < next a) ∨ (next a ≤ a ∧ (a < b ∨ b < next a))

instance (next : α → α) (b a : α) : Decidable (Between next b a) := by
  unfold Between
  infer_instance

theorem Ascending.perm (h : Ascending next l) (hperm : m.Perm l) : Ascending next m := by
  intro a ha
  rcases h a (hperm.mem_iff.1 ha) with ⟨hlt, hall⟩ | ⟨hle, hall⟩
  · exact .inl ⟨hlt, fun c hc => hall c (hperm.mem_iff.1 hc)⟩
  · exact .inr ⟨hle, fun c hc => hall c (hperm.mem_iff.1 hc)⟩

theorem Ascending.congr (h : Ascending next l) (heq : ∀ x ∈ l, next' x = next x) :
    Ascending next' l := by
  intro a ha
  rw [heq a ha]
  exact h a ha

/-- A new entry has its place. -/
theorem Ascending.exists_between (h : Ascending next l) (hne : l ≠ [])
    (hclosed : ∀ a ∈ l, next a ∈ l) (hb : b ∉ l) : ∃ a ∈ l, Between next b a := by
  by_cases hsmaller : ∃ c ∈ l, c < b
  · -- the largest of the smaller entries
    have hfin : (l.toFinset.filter (· < b)).Nonempty := by
      obtain ⟨c, hc, hcb⟩ := hsmaller
      exact ⟨c, Finset.mem_filter.2 ⟨List.mem_toFinset.2 hc, hcb⟩⟩
    obtain ⟨a, ha, hmax⟩ := Finset.exists_max_image _ id hfin
    obtain ⟨hal, hab⟩ := Finset.mem_filter.1 ha
    have hal := List.mem_toFinset.1 hal
    refine ⟨a, hal, ?_⟩
    rcases h a hal with ⟨hlt, -⟩ | ⟨hle, -⟩
    · refine .inl ⟨hab, ?_⟩
      by_contra hnb
      have hnext : next a < b := lt_of_le_of_ne (not_lt.1 hnb) fun heq => hb (heq ▸ hclosed a hal)
      have hle := hmax (next a) (Finset.mem_filter.2 ⟨List.mem_toFinset.2 (hclosed a hal), hnext⟩)
      exact absurd hlt (not_lt.2 hle)
    · exact .inr ⟨hle, .inl hab⟩
  · -- the largest entry, whose successor is the smallest
    push Not at hsmaller
    have hfin : l.toFinset.Nonempty := by
      obtain ⟨c, hc⟩ := List.exists_mem_of_ne_nil l hne
      exact ⟨c, List.mem_toFinset.2 hc⟩
    obtain ⟨a, ha, hmax⟩ := Finset.exists_max_image l.toFinset id hfin
    have hal := List.mem_toFinset.1 ha
    have hle : next a ≤ a := hmax (next a) (List.mem_toFinset.2 (hclosed a hal))
    refine ⟨a, hal, .inr ⟨hle, .inr ?_⟩⟩
    exact lt_of_le_of_ne (hsmaller _ (hclosed a hal)) fun heq => hb (heq ▸ hclosed a hal)

/-- Linking `b` where it belongs. -/
theorem Ascending.link (h : Ascending next (a :: t)) (hclosed : ∀ x ∈ a :: t, next x ∈ a :: t)
    (hat : a ∉ t) (hbetween : Between next b a) (hab : next' a = b)
    (hbn : next' b = next a) (heq : ∀ x ∈ t, next' x = next x) : Ascending next' (a :: b :: t) := by
  have ha := h a List.mem_cons_self
  have hna := hclosed a List.mem_cons_self
  -- every other entry is on one side of the gap
  have hside : ∀ c ∈ a :: t, (c ≤ a ∨ next a ≤ c) ∧ (next a ≤ a → next a ≤ c ∧ c ≤ a) := by
    intro c hc
    rcases ha with ⟨hlt, hall⟩ | ⟨hle, hall⟩
    · exact ⟨hall c hc, fun hle => absurd hlt (not_lt.2 hle)⟩
    · exact ⟨.inl (hall c hc).2, fun _ => hall c hc⟩
  have hmem : ∀ c ∈ a :: b :: t, c = b ∨ c ∈ a :: t := by
    intro c hc
    rw [List.mem_cons, List.mem_cons] at hc
    rw [List.mem_cons]
    tauto
  intro x hx
  rcases hmem x hx with rfl | hx
  · rw [hbn]
    rcases hbetween with ⟨hax, hxn⟩ | ⟨hna, hax | hxn⟩
    · refine .inl ⟨hxn, fun c hc => ?_⟩
      rcases hmem c hc with rfl | hc
      · exact .inl le_rfl
      · exact (hside c hc).1.imp_left fun hle => hle.trans hax.le
    · refine .inr ⟨hna.trans hax.le, fun c hc => ?_⟩
      rcases hmem c hc with rfl | hc
      · exact ⟨hna.trans hax.le, le_rfl⟩
      · exact ⟨((hside c hc).2 hna).1, ((hside c hc).2 hna).2.trans hax.le⟩
    · refine .inl ⟨hxn, fun c hc => ?_⟩
      rcases hmem c hc with rfl | hc
      · exact .inl le_rfl
      · exact .inr ((hside c hc).2 hna).1
  · rcases List.mem_cons.1 hx with rfl | hxt
    · rw [hab]
      rcases hbetween with ⟨hxb, hbn⟩ | ⟨hnx, hxb | hbn⟩
      · refine .inl ⟨hxb, fun c hc => ?_⟩
        rcases hmem c hc with rfl | hc
        · exact .inr le_rfl
        · exact (hside c hc).1.imp_right fun hle => hbn.le.trans hle
      · refine .inl ⟨hxb, fun c hc => ?_⟩
        rcases hmem c hc with rfl | hc
        · exact .inr le_rfl
        · exact .inl ((hside c hc).2 hnx).2
      · refine .inr ⟨hbn.le.trans hnx, fun c hc => ?_⟩
        rcases hmem c hc with rfl | hc
        · exact ⟨le_rfl, hbn.le.trans hnx⟩
        · exact ⟨hbn.le.trans ((hside c hc).2 hnx).1, ((hside c hc).2 hnx).2⟩
    · -- the gap after `x` is another one
      have hne : x ≠ a := fun heq => hat (heq ▸ hxt)
      have hxside := hside x hx
      have hnext := hclosed x hx
      have hyside := hside (next x) hnext
      rw [heq x hxt]
      rcases h x hx with ⟨hlt, hall⟩ | ⟨hle, hall⟩
      · refine .inl ⟨hlt, fun c hc => ?_⟩
        rcases hmem c hc with rfl | hc
        · have hxa := hall a List.mem_cons_self
          rcases hbetween with ⟨hac, hcn⟩ | ⟨hna', hac | hcn⟩
          · rcases hxside.1 with hle | hle
            · exact .inr ((hxa.resolve_left fun hge => hne (le_antisymm hle hge)).trans hac.le)
            · exact .inl (hcn.le.trans hle)
          · exact .inr ((hyside.2 hna').2.trans hac.le)
          · exact .inl (hcn.le.trans (hxside.2 hna').1)
        · exact hall c hc
      · refine .inr ⟨hle, fun c hc => ?_⟩
        rcases hmem c hc with rfl | hc
        · have hxa := hall a List.mem_cons_self
          have hxn := hall (next a) hna
          rcases hbetween with ⟨hac, hcn⟩ | ⟨hna', -⟩
          · exact ⟨hxa.1.trans hac.le, hcn.le.trans hxn.2⟩
          · exact absurd (le_antisymm (hxside.2 hna').2 hxa.2) hne
        · exact hall c hc

/-- Unlinking the successor of `a`. -/
theorem Ascending.unlink (h : Ascending next (a :: n :: t)) (hn : next a = n)
    (hnmem : n ∉ a :: t) (hclosed : next n ∈ a :: t) (han : next' a = next n)
    (heq : ∀ x ∈ t, next' x = next x) : Ascending next' (a :: t) := by
  have hsub : ∀ c ∈ a :: t, c ∈ a :: n :: t := fun c hc =>
    List.mem_cons.2 ((List.mem_cons.1 hc).imp_right (List.mem_cons_of_mem n))
  have hne : ∀ c ∈ a :: t, c ≠ n := fun c hc heq => hnmem (heq ▸ hc)
  intro x hx
  rcases List.mem_cons.1 hx with rfl | hxt
  · rw [han]
    have hx' := h x List.mem_cons_self
    rw [hn] at hx'
    have hn' := h n (List.mem_cons_of_mem x List.mem_cons_self)
    rcases hx' with ⟨hlt, hall⟩ | ⟨hle, hall⟩
    · rcases hn' with ⟨hlt', hall'⟩ | ⟨hle', hall'⟩
      · refine .inl ⟨hlt.trans hlt', fun c hc => ?_⟩
        refine (hall c (hsub c hc)).imp_right fun hnc => ?_
        exact (hall' c (hsub c hc)).resolve_left fun hcn => hne c hc (le_antisymm hcn hnc)
      · refine .inr ⟨(hall' x List.mem_cons_self).1, fun c hc => ?_⟩
        refine ⟨(hall' c (hsub c hc)).1, (hall c (hsub c hc)).resolve_right fun hnc => ?_⟩
        exact hne c hc (le_antisymm (hall' c (hsub c hc)).2 hnc)
    · rcases hn' with ⟨hlt', hall'⟩ | ⟨hle', hall'⟩
      · refine .inr ⟨(hall _ (hsub _ hclosed)).2, fun c hc => ?_⟩
        refine ⟨(hall' c (hsub c hc)).resolve_left fun hcn => ?_, (hall c (hsub c hc)).2⟩
        exact hne c hc (le_antisymm hcn (hall c (hsub c hc)).1)
      · exact absurd (le_antisymm (hall' x List.mem_cons_self).2 hle) (hne x List.mem_cons_self)
  · rw [heq x hxt]
    rcases h x (hsub x hx) with ⟨hlt, hall⟩ | ⟨hle, hall⟩
    · exact .inl ⟨hlt, fun c hc => hall c (hsub c hc)⟩
    · exact .inr ⟨hle, fun c hc => hall c (hsub c hc)⟩

theorem Leads.lt_of_mem (h : Leads next a l z) (hup : ∀ x ∈ a :: l, next x ∈ l → x < next x) :
    (a :: l).Pairwise (· < ·) := by
  refine List.isChain_iff_pairwise.1 ?_
  induction l generalizing a with
  | nil => exact List.isChain_singleton a
  | cons c l ih =>
    obtain ⟨hnext, hleads⟩ := h
    refine List.isChain_cons_cons.2 ⟨?_, ih hleads fun x hx hmem => ?_⟩
    · exact hnext ▸ hup a List.mem_cons_self (hnext ▸ List.mem_cons_self)
    · exact hup x (List.mem_cons_of_mem a hx) (List.mem_cons_of_mem c hmem)

/-- In the order of the links the entries ascend from the smallest one to the largest, and then once
around. -/
theorem IsCircle.sorted (h : IsCircle next s t) (hasc : Ascending next (s :: t)) :
    ∃ high low, s :: t = high ++ low ∧ (low ++ high).Pairwise (· < ·) := by
  have hfin : (s :: t).toFinset.Nonempty := ⟨s, by simp⟩
  obtain ⟨a, ha, hmin⟩ := Finset.exists_min_image _ id hfin
  have ha := List.mem_toFinset.1 ha
  have hmin : ∀ c ∈ s :: t, a ≤ c := fun c hc => hmin c (List.mem_toFinset.2 hc)
  obtain ⟨high, low, hsplit⟩ := List.append_of_mem ha
  -- the same circle from its smallest entry on
  have hcircle : IsCircle next a (low ++ high) := by
    cases high with
    | nil =>
      obtain ⟨rfl, rfl⟩ := List.cons.inj hsplit
      rw [List.append_nil]
      exact h
    | cons c high =>
      obtain ⟨rfl, rfl⟩ := List.cons.inj hsplit
      have hperm : (a :: low ++ s :: high).Perm (s :: high ++ a :: low) := List.perm_append_comm
      have hleads := leads_append.1 h.leads
      exact ⟨hperm.nodup_iff.2 h.nodup, leads_append.2 ⟨hleads.2, hleads.1⟩⟩
  refine ⟨high, a :: low, hsplit, hcircle.leads.lt_of_mem fun x hx hmem => ?_⟩
  have hperm : (a :: (low ++ high)).Perm (s :: t) := by
    have hcomm : (a :: low ++ high).Perm (high ++ a :: low) := List.perm_append_comm
    rw [hsplit]
    exact hcomm
  rcases hasc x (hperm.mem_iff.1 hx) with ⟨hlt, -⟩ | ⟨-, hall⟩
  · exact hlt
  · have hle := (hall a ha).1
    have hge := hmin (next x) (hperm.mem_iff.1 (List.mem_cons_of_mem a hmem))
    exact absurd ((le_antisymm hle hge) ▸ hmem) (List.nodup_cons.1 hcircle.nodup).1

end Ucore.CircularList
