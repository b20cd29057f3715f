import Mathlib.Data.List.Chain
import Mathlib.Data.List.Nodup

/-!
# Circular doubly linked lists

An intrusive list keeps its `prev` and `next` pointers inside the entries.  `Links` is the pair of
pointer maps, and `IsRing L h xs` says that the entries met from the head `h` along `next` are exactly
`xs`, each once, back to `h`, and that `prev` leads the same way back.

Two primitive updates are enough: `Links.insert` writes the four pointers that put an entry between
two neighbours, `Links.remove` the two that bypass one.  Between neighbours of a ring they insert and
remove the entry (`IsRing.insert`, `IsRing.remove`).
-/

namespace Ucore.LinkedRing

variable {α : Type*} [DecidableEq α]

/-- The pointers of all entries. -/
structure Links (α : Type*) where
  prev : α → α
  next : α → α

/-- Put `e` between `p` and `q`. -/
def Links.insert (L : Links α) (e p q : α) : Links α where
  prev := Function.update (Function.update L.prev q e) e p
  next := Function.update (Function.update L.next p e) e q

/-- Make `p` and `q` neighbours. -/
def Links.remove (L : Links α) (p q : α) : Links α where
  prev := Function.update L.prev q p
  next := Function.update L.next p q

theorem Links.insert_next_of_ne (L : Links α) {e p a : α} (q : α) (he : a ≠ e) (hp : a ≠ p) :
    (L.insert e p q).next a = L.next a :=
  (Function.update_of_ne he _ _).trans (Function.update_of_ne hp _ _)

theorem Links.insert_prev_of_ne (L : Links α) {e q a : α} (p : α) (he : a ≠ e) (hq : a ≠ q) :
    (L.insert e p q).prev a = L.prev a :=
  (Function.update_of_ne he _ _).trans (Function.update_of_ne hq _ _)

theorem Links.insert_next_pred (L : Links α) {e p : α} (q : α) (h : p ≠ e) :
    (L.insert e p q).next p = e :=
  (Function.update_of_ne h _ _).trans (Function.update_self _ _ _)

theorem Links.insert_prev_succ (L : Links α) {e q : α} (p : α) (h : q ≠ e) :
    (L.insert e p q).prev q = e :=
  (Function.update_of_ne h _ _).trans (Function.update_self _ _ _)

/-- Consecutive entries of `l` point at each other. -/
def Linked (L : Links α) (l : List α) : Prop := l.IsChain fun a b => L.next a = b ∧ L.prev b = a

omit [DecidableEq α] in
/-- Only the `next` pointers of all entries but the last and the `prev` pointers of all but the
first matter. -/
theorem Linked.congr {L L' : Links α} : ∀ {l : List α}, Linked L l →
    (∀ a ∈ l.dropLast, L'.next a = L.next a) → (∀ a ∈ l.tail, L'.prev a = L.prev a) → Linked L' l
  | [], _, _, _ => List.isChain_nil
  | [a], _, _, _ => List.isChain_singleton a
  | a :: b :: l, h, hn, hp => by
    have h' := List.isChain_cons_cons.mp h
    refine List.isChain_cons_cons.mpr ⟨⟨?_, ?_⟩, Linked.congr (l := b :: l) h'.2 ?_ ?_⟩
    · rw [hn a (by simp), h'.1.1]
    · rw [hp b (by simp), h'.1.2]
    · exact fun x hx => hn x (by simp [hx])
    · exact fun x hx => hp x (by rw [List.tail_cons] at hx ⊢; exact List.mem_cons_of_mem b hx)

/-- Joining two chains at the ends that become neighbours. -/
theorem Linked.remove {L : Links α} {l₁ l₂ : List α} {p q : α} (h₁ : Linked L (l₁ ++ [p]))
    (h₂ : Linked L (q :: l₂)) (hn : (l₁ ++ [p] ++ (q :: l₂).dropLast).Nodup)
    (hp : ((l₁ ++ [p]).tail ++ q :: l₂).Nodup) :
    Linked (L.remove p q) (l₁ ++ p :: q :: l₂) := by
  refine List.isChain_append_cons_cons.mpr ⟨?_, ?_, ?_⟩
  · refine Linked.congr h₁ (fun a ha => Function.update_of_ne ?_ _ _)
      fun a ha => Function.update_of_ne ?_ _ _
    · rintro rfl
      rw [List.dropLast_concat] at ha
      exact (List.nodup_append.mp (List.nodup_append.mp hn).1).2.2 a ha a (by simp) rfl
    · rintro rfl
      exact (List.nodup_append.mp hp).2.2 a ha a (by simp) rfl
  · exact ⟨Function.update_self _ _ _, Function.update_self _ _ _⟩
  · refine Linked.congr h₂ (fun a ha => Function.update_of_ne ?_ _ _)
      fun a ha => Function.update_of_ne ?_ _ _
    · rintro rfl
      exact (List.nodup_append.mp hn).2.2 a (by simp) a ha rfl
    · rintro rfl
      exact (List.nodup_cons.mp (List.nodup_append.mp hp).2.1).1 ha

/-- From the head `h` the list visits exactly `xs`. -/
structure IsRing (L : Links α) (h : α) (xs : List α) : Prop where
  nodup : (h :: xs).Nodup
  linked : Linked L (h :: xs ++ [h])

variable {L : Links α} {h : α} {xs us vs : List α} {p q e : α} {l₁ l₂ : List α}

omit [DecidableEq α] in
theorem isRing_nil_iff : IsRing L h [] ↔ L.next h = h ∧ L.prev h = h :=
  ⟨fun hr => (List.isChain_pair (R := fun a b => L.next a = b ∧ L.prev b = a)).mp hr.linked,
    fun hp => ⟨List.nodup_singleton h, List.isChain_pair.mpr hp⟩⟩

omit [DecidableEq α] in
/-- The neighbours on both sides of a cut of the ring. -/
theorem IsRing.neighbours (hr : IsRing L h (us ++ vs)) (hu : h :: us = l₁ ++ [p])
    (hv : vs ++ [h] = q :: l₂) : L.next p = q ∧ L.prev q = p := by
  have hl := hr.linked
  rw [← List.cons_append, List.append_assoc, hv, hu, List.append_assoc] at hl
  exact (List.isChain_append_cons_cons.mp hl).2.1

omit [DecidableEq α] in
/-- The successor of an entry. -/
theorem IsRing.next_of_mem (hr : IsRing L h (us ++ e :: vs)) :
    L.next e = (vs ++ [h]).head (by simp) := by
  obtain ⟨q, l₂, hq⟩ : ∃ q l₂, vs ++ [h] = q :: l₂ := List.exists_cons_of_ne_nil (by simp)
  rw [show us ++ e :: vs = (us ++ [e]) ++ vs by simp] at hr
  have := (hr.neighbours (show h :: (us ++ [e]) = (h :: us) ++ [e] by simp) hq).1
  simp only [hq, List.head_cons, this]

omit [DecidableEq α] in
/-- The predecessor of an entry. -/
theorem IsRing.prev_of_mem (hr : IsRing L h (us ++ e :: vs)) :
    L.prev e = (h :: us).getLast (by simp) := by
  have hu : h :: us = (h :: us).dropLast ++ [(h :: us).getLast (by simp)] :=
    (List.dropLast_append_getLast _).symm
  exact (hr.neighbours hu (show e :: vs ++ [h] = e :: (vs ++ [h]) from rfl)).2

omit [DecidableEq α] in
theorem IsRing.nodup_next (hr : IsRing L h (us ++ vs)) (hu : h :: us = l₁ ++ [p])
    (hv : vs ++ [h] = q :: l₂) : (l₁ ++ [p] ++ (q :: l₂).dropLast).Nodup := by
  rw [← hu, ← hv, List.dropLast_concat]
  exact hr.nodup

omit [DecidableEq α] in
theorem IsRing.nodup_prev (hr : IsRing L h (us ++ vs)) (hu : h :: us = l₁ ++ [p])
    (hv : vs ++ [h] = q :: l₂) : ((l₁ ++ [p]).tail ++ q :: l₂).Nodup := by
  rw [← hu, ← hv, List.tail_cons, ← List.append_assoc]
  have := hr.nodup
  rw [List.nodup_cons] at this
  rw [List.nodup_append]
  exact ⟨this.2, List.nodup_singleton h, fun a ha b hb => by
    rintro rfl
    exact this.1 ((List.mem_singleton.mp hb) ▸ ha)⟩

omit [DecidableEq α] in
theorem IsRing.linked_cut (hr : IsRing L h (us ++ vs)) (hu : h :: us = l₁ ++ [p])
    (hv : vs ++ [h] = q :: l₂) : Linked L (l₁ ++ [p]) ∧ Linked L (q :: l₂) := by
  have hl := hr.linked
  rw [← List.cons_append, List.append_assoc, hv, hu] at hl
  exact ⟨List.IsChain.left_of_append hl, List.IsChain.right_of_append hl⟩

/-- **Insertion** of a fresh entry between two neighbours. -/
theorem IsRing.insert (hr : IsRing L h (us ++ vs)) (he : e ∉ h :: (us ++ vs))
    (hu : h :: us = l₁ ++ [p]) (hv : vs ++ [h] = q :: l₂) :
    IsRing (L.insert e p q) h (us ++ e :: vs) := by
  have hmem : ∀ a, a ∈ h :: us ∨ a ∈ vs ++ [h] → a ≠ e := by
    rintro a ha rfl
    simp only [List.mem_cons, List.mem_append, List.not_mem_nil, or_false] at ha he
    tauto
  have hep : ∀ a ∈ l₁ ++ [p], a ≠ e := fun a ha => hmem a (Or.inl (hu ▸ ha))
  have heq : ∀ a ∈ q :: l₂, a ≠ e := fun a ha => hmem a (Or.inr (hv ▸ ha))
  have hnd := hr.nodup_next hu hv
  have hpd := hr.nodup_prev hu hv
  obtain ⟨hl, hr₂⟩ := hr.linked_cut hu hv
  refine ⟨?_, ?_⟩
  · rw [← List.cons_append, List.nodup_middle]
    exact List.nodup_cons.mpr ⟨he, hr.nodup⟩
  rw [show h :: (us ++ e :: vs) ++ [h] = (h :: us) ++ e :: (vs ++ [h]) by simp, hv, hu,
    List.append_assoc, List.singleton_append]
  refine List.isChain_append_cons_cons.mpr ⟨?_, ⟨?_, ?_⟩, List.isChain_cons_cons.mpr
    ⟨⟨?_, ?_⟩, ?_⟩⟩
  · refine Linked.congr hl (fun a ha => ?_) fun a ha => ?_
    · have hae := hep a (List.dropLast_subset _ ha)
      have hap : a ≠ p := by
        rintro rfl
        rw [List.dropLast_concat] at ha
        exact (List.nodup_append.mp (List.nodup_append.mp hnd).1).2.2 a ha a (by simp) rfl
      exact L.insert_next_of_ne q hae hap
    · have hae := hep a (List.mem_of_mem_tail ha)
      have haq : a ≠ q := by
        rintro rfl
        exact (List.nodup_append.mp hpd).2.2 a ha a (by simp) rfl
      exact L.insert_prev_of_ne p hae haq
  · exact L.insert_next_pred q (hep p (by simp))
  · exact Function.update_self _ _ _
  · exact Function.update_self _ _ _
  · exact L.insert_prev_succ p (heq q (by simp))
  · refine Linked.congr hr₂ (fun a ha => ?_) fun a ha => ?_
    · have hae := heq a (List.dropLast_subset _ ha)
      have hap : a ≠ p := by
        rintro rfl
        exact (List.nodup_append.mp hnd).2.2 a (by simp) a ha rfl
      exact L.insert_next_of_ne q hae hap
    · have hae := heq a (List.mem_cons_of_mem q ha)
      have haq : a ≠ q := by
        rintro rfl
        exact (List.nodup_cons.mp (List.nodup_append.mp hpd).2.1).1 ha
      exact L.insert_prev_of_ne p hae haq

/-- **Removal** of an entry by linking its neighbours. -/
theorem IsRing.remove (hr : IsRing L h (us ++ e :: vs)) :
    IsRing (L.remove (L.prev e) (L.next e)) h (us ++ vs) := by
  obtain ⟨q, l₂, hq⟩ : ∃ q l₂, vs ++ [h] = q :: l₂ := List.exists_cons_of_ne_nil (by simp)
  have hu : h :: us = (h :: us).dropLast ++ [(h :: us).getLast (by simp)] :=
    (List.dropLast_append_getLast _).symm
  have hnext : L.next e = q := by rw [hr.next_of_mem]; simp only [hq, List.head_cons]
  rw [hnext, hr.prev_of_mem]
  set l₁ := (h :: us).dropLast
  set p := (h :: us).getLast (by simp)
  -- the ring without `e`, cut where `e` was
  have hnd : (h :: (us ++ vs)).Nodup := by
    have := hr.nodup
    rw [← List.cons_append, List.nodup_middle] at this
    exact (List.nodup_cons.mp this).2
  have hl := hr.linked
  rw [show h :: (us ++ e :: vs) ++ [h] = (h :: us) ++ e :: (vs ++ [h]) by simp, hq] at hl
  have hl₁ : Linked L (l₁ ++ [p]) := by
    rw [← hu]
    exact List.IsChain.left_of_append hl
  have hl₂ : Linked L (q :: l₂) :=
    (List.isChain_cons_cons.mp (List.IsChain.right_of_append hl)).2
  refine ⟨hnd, ?_⟩
  rw [show h :: (us ++ vs) ++ [h] = (h :: us) ++ (vs ++ [h]) by simp, hq, hu, List.append_assoc,
    List.singleton_append]
  refine Linked.remove hl₁ hl₂ ?_ ?_
  · rw [← hu, ← hq, List.dropLast_concat]
    exact hnd
  · rw [← hu, ← hq, List.tail_cons, ← List.append_assoc]
    rw [List.nodup_cons] at hnd
    rw [List.nodup_append]
    exact ⟨hnd.2, List.nodup_singleton h, fun a ha b hb => by
      rintro rfl
      exact hnd.1 ((List.mem_singleton.mp hb) ▸ ha)⟩

end Ucore.LinkedRing
