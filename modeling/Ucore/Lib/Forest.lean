import Mathlib.Data.List.Nodup
import Mathlib.Data.Set.Insert
import Mathlib.Logic.Function.Basic

/-!
# Trees of nodes with sibling lists

Each node has a link to its parent, one to its first child, and links that join the children of one
parent into a doubly linked list: `older` goes down the list, `younger` back.  `IsForest f r S` says
that the links are those of a tree with the nodes `S` below `r`.

`attach` puts a node in front of the children of its parent, `detach` takes a node out of their list,
and `adopt` moves the first child of a node to another parent.  A program that moves all children goes
through states in which the list that remains has a first element with a stale link: `Adopting`.
-/

namespace Ucore.Forest

open Function

variable {α : Type*}

/-! ### Sibling lists -/

/-- From `h` the links `next` visit the list, and `prev` leads back, at the start to `p`. -/
def Visits (next prev : α → Option α) : Option α → Option α → List α → Prop
  | _, h, [] => h = none
  | p, h, a :: l => h = some a ∧ prev a = p ∧ Visits next prev (some a) (next a) l

section Visits

variable {next prev next' prev' : α → Option α} {p p' h : Option α} {a b c : α} {l l₁ l₂ : List α}

theorem Visits.congr (hl : Visits next prev p h l) (hn : ∀ a ∈ l, next' a = next a)
    (hp : ∀ a ∈ l, prev' a = prev a) : Visits next' prev' p h l := by
  induction l generalizing p h with
  | nil => exact hl
  | cons a l ih =>
    obtain ⟨hh, hprev, hl⟩ := hl
    refine ⟨hh, (hp a List.mem_cons_self).trans hprev, ?_⟩
    rw [hn a List.mem_cons_self]
    exact ih hl (fun b hb => hn b (List.mem_cons_of_mem _ hb))
      fun b hb => hp b (List.mem_cons_of_mem _ hb)

/-- The list starts at `h`. -/
theorem Visits.head (hl : Visits next prev p h l) : h = l.head? := by
  cases l with
  | nil => exact hl
  | cons a l => exact hl.1

/-- The links determine the list. -/
theorem Visits.unique (hl₁ : Visits next prev p h l₁) (hl₂ : Visits next prev' p' h l₂) :
    l₁ = l₂ := by
  induction l₁ generalizing p p' h l₂ with
  | nil => exact (List.head?_eq_none_iff.mp (hl₁.symm.trans hl₂.head).symm).symm
  | cons a l₁ ih =>
    cases l₂ with
    | nil => exact nomatch hl₁.1.symm.trans hl₂
    | cons b l₂ =>
      have hab : a = b := Option.some.inj (hl₁.1.symm.trans hl₂.1)
      subst hab
      rw [ih hl₁.2.2 hl₂.2.2]

/-- What follows an element. -/
theorem Visits.next_eq (hl : Visits next prev p h (l₁ ++ a :: l₂)) : next a = l₂.head? := by
  induction l₁ generalizing p h with
  | nil => exact hl.2.2.head
  | cons b l₁ ih => exact ih hl.2.2

/-- What precedes an element. -/
theorem Visits.prev_eq (hl : Visits next prev p h (l₁ ++ a :: l₂)) :
    l₁ = [] ∧ prev a = p ∨ ∃ b ∈ l₁, prev a = some b := by
  induction l₁ generalizing p h with
  | nil => exact Or.inl ⟨rfl, hl.2.1⟩
  | cons b l₁ ih =>
    right
    rcases ih hl.2.2 with ⟨-, hprev⟩ | ⟨c, hc, hprev⟩
    · exact ⟨b, List.mem_cons_self, hprev⟩
    · exact ⟨c, List.mem_cons_of_mem _ hc, hprev⟩

variable [DecidableEq α]

/-- `f` with the value `v` at the element, if there is one. -/
def setAt (f : α → Option α) (i v : Option α) : α → Option α :=
  match i with
  | none => f
  | some a => update f a v

theorem setAt_of_ne {f : α → Option α} {i v : Option α} (hne : i ≠ some a) : setAt f i v a = f a := by
  cases i with
  | none => rfl
  | some b => exact update_of_ne (fun heq => hne (congrArg some heq.symm)) _ _

@[simp] theorem setAt_self {f : α → Option α} {v : Option α} : setAt f (some a) v a = v :=
  update_self _ _ _

/-- The link of a node outside the list is changed. -/
theorem Visits.update_next (hl : Visits next prev p h l) (ha : a ∉ l) (v : Option α) :
    Visits (update next a v) prev p h l :=
  hl.congr (fun _ hb => update_of_ne (ne_of_mem_of_not_mem hb ha) _ _) fun _ _ => rfl

theorem Visits.update_prev (hl : Visits next prev p h l) (ha : a ∉ l) (v : Option α) :
    Visits next (update prev a v) p h l :=
  hl.congr (fun _ _ => rfl) fun _ hb => update_of_ne (ne_of_mem_of_not_mem hb ha) _ _

/-- The first element gets another predecessor. -/
theorem Visits.setPrev (hl : Visits next prev p h l) (hnodup : l.Nodup) (q : Option α) :
    Visits next (setAt prev h q) q h l := by
  cases l with
  | nil => exact hl
  | cons a l =>
    obtain ⟨rfl, -, hl⟩ := hl
    exact ⟨rfl, setAt_self, hl.update_prev (List.nodup_cons.mp hnodup).1 q⟩

/-- The links of a list without its element `a`.  The predecessor of the list is not in it. -/
theorem Visits.remove (hl : Visits next prev p h (l₁ ++ a :: l₂)) (hnodup : (l₁ ++ a :: l₂).Nodup)
    (hp : ∀ b, p = some b → b ∉ l₁ ++ a :: l₂) :
    Visits (setAt next (prev a) (next a)) (setAt prev (next a) (prev a)) p
      (if l₁ = [] then next a else h) (l₁ ++ l₂) := by
  induction l₁ generalizing p h with
  | nil =>
    obtain ⟨rfl, rfl, hl⟩ := hl
    rw [if_pos rfl]
    refine (hl.setPrev (List.nodup_cons.mp hnodup).2 (prev a)).congr ?_ fun _ _ => rfl
    intro b hb
    apply setAt_of_ne
    intro heq
    exact hp b heq (List.mem_cons_of_mem _ hb)
  | cons b l₁ ih =>
    have hbnot : b ∉ l₁ ++ a :: l₂ := (List.nodup_cons.mp hnodup).1
    obtain ⟨rfl, hprev, hl⟩ := hl
    have hrest := ih hl (List.nodup_cons.mp hnodup).2 fun c hc => Option.some.inj hc ▸ hbnot
    have hback : setAt prev (next a) (prev a) b = p := by
      rw [setAt_of_ne, hprev]
      rw [hl.next_eq]
      intro hhead
      exact hbnot (List.mem_append_right _ (List.mem_cons_of_mem _ (List.mem_of_mem_head? hhead)))
    have hnext : setAt next (prev a) (next a) b = if l₁ = [] then next a else next b := by
      rcases hl.prev_eq with ⟨rfl, hpa⟩ | ⟨c, hc, hpa⟩
      · rw [hpa, setAt_self, if_pos rfl]
      · rw [hpa, setAt_of_ne, if_neg (List.ne_nil_of_mem hc)]
        intro heq
        exact hbnot (List.mem_append_left _ (Option.some.inj heq ▸ hc))
    rw [if_neg (List.cons_ne_nil b l₁)]
    exact ⟨rfl, hback, hnext.symm ▸ hrest⟩

end Visits

/-! ### Trees -/

/-- The links of all nodes. -/
structure Links (α : Type*) where
  parent : α → Option α
  first : α → Option α
  younger : α → Option α
  older : α → Option α

variable {f f' : Links α} {r p q i c : α} {S : Set α} {l l' : List α}

/-- From its first child, the sibling links visit the children of `p`, once each. -/
structure Children (f : Links α) (S : Set α) (p : α) (prev : Option α) (l : List α) : Prop where
  visits : Visits f.older f.younger prev (f.first p) l
  nodup : l.Nodup
  mem : ∀ c, c ∈ l ↔ c ∈ S ∧ f.parent c = some p

structure IsForest (f : Links α) (r : α) (S : Set α) : Prop where
  root : r ∉ S
  parent : ∀ c ∈ S, ∃ p, f.parent c = some p ∧ (p = r ∨ p ∈ S)
  children : ∀ p, p = r ∨ p ∈ S → ∃ l, Children f S p none l

theorem Children.unique {prev prev' : Option α} (h : Children f S p prev l)
    (h' : Children f S p prev' l') : l = l' := h.visits.unique h'.visits

/-- A node without children has no first child, and the other way round. -/
theorem Children.first_eq_none {prev : Option α} (h : Children f S p prev l) :
    f.first p = none ↔ ∀ c ∈ S, f.parent c ≠ some p := by
  rw [h.visits.head, List.head?_eq_none_iff, List.eq_nil_iff_forall_not_mem]
  constructor
  · intro hnil c hc hpar
    exact hnil c ((h.mem c).mpr ⟨hc, hpar⟩)
  · intro hnone c hc
    exact hnone c ((h.mem c).mp hc).1 ((h.mem c).mp hc).2

/-- The list of a node whose children and their links stay the same. -/
theorem Children.keep {S' : Set α} {prev : Option α} (h : Children f S q prev l)
    (hfirst : f'.first q = f.first q)
    (hmem : ∀ b, b ∈ S' ∧ f'.parent b = some q ↔ b ∈ S ∧ f.parent b = some q)
    (hlinks : ∀ b ∈ l, f'.younger b = f.younger b ∧ f'.older b = f.older b) :
    Children f' S' q prev l := by
  refine ⟨?_, h.nodup, fun c => (h.mem c).trans (hmem c).symm⟩
  rw [hfirst]
  exact h.visits.congr (fun b hb => (hlinks b hb).2) fun b hb => (hlinks b hb).1

/-- The first child of one node is no child of another. -/
theorem Children.first_ne {prev prev' : Option α} (h : Children f S p prev l)
    (h' : Children f S q prev' l') (hqp : q ≠ p) : ∀ b ∈ l', f.first p ≠ some b := by
  intro b hb heq
  rw [h.visits.head] at heq
  have hp := ((h.mem b).mp (List.mem_of_mem_head? heq)).2
  rw [((h'.mem b).mp hb).2] at hp
  exact hqp (Option.some.inj hp)

/-- The links of nodes outside the tree do not matter. -/
theorem IsForest.congr (h : IsForest f r S) (hfirst : ∀ p, p = r ∨ p ∈ S → f'.first p = f.first p)
    (hsame : ∀ c ∈ S, f'.parent c = f.parent c ∧ f'.younger c = f.younger c ∧
      f'.older c = f.older c) : IsForest f' r S := by
  refine ⟨h.root, ?_, ?_⟩
  · intro c hc
    rw [(hsame c hc).1]
    exact h.parent c hc
  · intro p hp
    obtain ⟨l, hl⟩ := h.children p hp
    refine ⟨l, hl.keep (hfirst p hp) ?_ fun b hb => (hsame b ((hl.mem b).mp hb).1).2⟩
    intro b
    refine and_congr_right fun hb => ?_
    rw [(hsame b hb).1]

/-- The root alone. -/
theorem isForest_empty (hfirst : f.first r = none) : IsForest f r ∅ := by
  refine ⟨Set.notMem_empty r, fun c hc => absurd hc (Set.notMem_empty c), ?_⟩
  intro p hp
  rcases hp with rfl | hp
  · exact ⟨[], hfirst, List.nodup_nil, fun c => iff_of_false List.not_mem_nil fun h => h.1⟩
  · exact absurd hp (Set.notMem_empty p)

section Operations

variable [DecidableEq α]

namespace Links

/-- The node `c` becomes the first child of its parent `p`. -/
def attach (c p : α) (f : Links α) : Links α :=
  { f with
    younger := setAt (update f.younger c none) (f.first p) (some c)
    older := update f.older c (f.first p)
    first := update f.first p (some c) }

/-- The node `c` leaves the children of its parent. -/
def detach (c : α) (f : Links α) : Links α :=
  let younger := setAt f.younger (f.older c) (f.younger c)
  match younger c with
  | some b => { f with younger := younger, older := update f.older b (f.older c) }
  | none => { f with younger := younger, first := setAt f.first (f.parent c) (f.older c) }

/-- The first child `c` of `p` becomes the first child of `i`. -/
def adopt (c p i : α) (f : Links α) : Links α :=
  let first := update f.first p (f.older c)
  { parent := update f.parent c (some i)
    younger := setAt (update f.younger c none) (first i) (some c)
    older := update f.older c (first i)
    first := update first i (some c) }

end Links

/-! ### A new child -/

/-- **A node is attached.** -/
theorem IsForest.attach (h : IsForest f r S) (hc : c ∉ S) (hcr : c ≠ r) (hp : p = r ∨ p ∈ S)
    (hpar : f.parent c = some p) (hfirst : f.first c = none) :
    IsForest (f.attach c p) r (insert c S) := by
  have hne : ∀ q, q = r ∨ q ∈ S → q ≠ c := by
    rintro q (rfl | hq) rfl
    · exact hcr rfl
    · exact hc hq
  have hmem : ∀ q, q ≠ p → ∀ b, b ∈ insert c S ∧ f.parent b = some q ↔
      b ∈ S ∧ f.parent b = some q := by
    intro q hqp b
    rw [Set.mem_insert_iff]
    refine and_congr_left fun hb => or_iff_right ?_
    rintro rfl
    exact hqp (Option.some.inj (hb.symm.trans hpar))
  obtain ⟨l, hl⟩ := h.children p hp
  have hcl : ∀ {q l'} {prev : Option α}, Children f S q prev l' → c ∉ l' :=
    fun hl' hmem => hc ((hl'.mem c).mp hmem).1
  refine ⟨?_, ?_, ?_⟩
  · rintro (rfl | hr)
    · exact hcr rfl
    · exact h.root hr
  · rintro b (rfl | hb)
    · exact ⟨p, hpar, hp.imp_right (Set.mem_insert_of_mem _)⟩
    · obtain ⟨q, hq, hqS⟩ := h.parent b hb
      exact ⟨q, hq, hqS.imp_right (Set.mem_insert_of_mem _)⟩
  · intro q hq
    rw [Set.mem_insert_iff, or_left_comm] at hq
    by_cases hqp : q = p
    · -- the new list
      subst hqp
      refine ⟨c :: l, ⟨?_, ?_, ?_⟩, List.nodup_cons.mpr ⟨hcl hl, hl.nodup⟩, ?_⟩
      · exact update_self _ _ _
      · show setAt (update f.younger c none) (f.first q) (some c) c = none
        rw [setAt_of_ne, update_self]
        intro heq
        rw [hl.visits.head] at heq
        exact hcl hl (List.mem_of_mem_head? heq)
      · show Visits (update f.older c _) (setAt (update f.younger c none) _ _) (some c)
          (update f.older c (f.first q) c) l
        rw [update_self]
        exact ((hl.visits.update_prev (hcl hl) none).setPrev hl.nodup (some c)).update_next
          (hcl hl) _
      · intro b
        rw [List.mem_cons, hl.mem b, Set.mem_insert_iff]
        constructor
        · rintro (rfl | ⟨hb, hbp⟩)
          · exact ⟨Or.inl rfl, hpar⟩
          · exact ⟨Or.inr hb, hbp⟩
        · rintro ⟨rfl | hb, hbp⟩
          · exact Or.inl rfl
          · exact Or.inr ⟨hb, hbp⟩
    · have hfirst' : (f.attach c p).first q = f.first q := update_of_ne hqp _ _
      rcases hq with rfl | hq
      · refine ⟨[], hfirst'.trans hfirst, List.nodup_nil, ?_⟩
        intro b
        refine iff_of_false List.not_mem_nil fun hb => ?_
        obtain ⟨hb, hbq⟩ := (hmem q hqp b).mp hb
        obtain ⟨q', hq', hq'S⟩ := h.parent b hb
        exact hne q' hq'S (Option.some.inj (hq'.symm.trans hbq))
      · obtain ⟨l', hl'⟩ := h.children q hq
        refine ⟨l', hl'.keep hfirst' (hmem q hqp) ?_⟩
        intro b hb
        have hbc : b ≠ c := ne_of_mem_of_not_mem hb (hcl hl')
        refine ⟨?_, update_of_ne hbc _ _⟩
        show setAt (update f.younger c none) (f.first p) (some c) b = _
        rw [setAt_of_ne (hl.first_ne hl' hqp b hb), update_of_ne hbc]

/-! ### A node leaves -/

theorem detach_eq (h : f.older c ≠ some c) :
    f.detach c = { f with
      younger := setAt f.younger (f.older c) (f.younger c)
      older := setAt f.older (f.younger c) (f.older c)
      first := if f.younger c = none then setAt f.first (f.parent c) (f.older c) else f.first } := by
  have hself : setAt f.younger (f.older c) (f.younger c) c = f.younger c := setAt_of_ne h
  rw [Links.detach, hself]
  cases f.younger c with
  | none => rfl
  | some b => rfl

@[simp] theorem detach_parent (f : Links α) (c : α) : (f.detach c).parent = f.parent := by
  rw [Links.detach]
  split
  · rfl
  · rfl

/-- **A node without children is detached.** -/
theorem IsForest.detach (h : IsForest f r S) (hc : c ∈ S) (hfirst : f.first c = none) :
    IsForest (f.detach c) r (S \ {c}) := by
  obtain ⟨p, hpar, hp⟩ := h.parent c hc
  obtain ⟨l, hl⟩ := h.children p hp
  obtain ⟨l₁, l₂, rfl⟩ := List.append_of_mem ((hl.mem c).mpr ⟨hc, hpar⟩)
  have hnext : f.older c = l₂.head? := hl.visits.next_eq
  have hold : ∀ b, f.older c = some b → b ∈ l₂ := by
    intro b hb
    exact List.mem_of_mem_head? (hnext.symm.trans hb)
  have hyoung : ∀ b, f.younger c = some b → b ∈ l₁ := by
    intro b hb
    rcases hl.visits.prev_eq with ⟨-, hnone⟩ | ⟨d, hd, hsome⟩
    · exact nomatch hb.symm.trans hnone
    · exact Option.some.inj (hsome.symm.trans hb) ▸ hd
  have hempty : f.younger c = none ↔ l₁ = [] := by
    constructor
    · intro hnone
      rcases hl.visits.prev_eq with ⟨hnil, -⟩ | ⟨d, hd, hsome⟩
      · exact hnil
      · exact nomatch hsome.symm.trans hnone
    · rintro rfl
      exact hl.visits.2.1
  have hcl := List.nodup_middle.mp hl.nodup
  have hcnot : c ∉ l₁ ++ l₂ := (List.nodup_cons.mp hcl).1
  rw [detach_eq fun heq => hcnot (List.mem_append_right _ (hold c heq))]
  have hleaf : ∀ b ∈ S, f.parent b ≠ some c := by
    obtain ⟨l', hl'⟩ := h.children c (Or.inr hc)
    exact hl'.first_eq_none.mp hfirst
  refine ⟨fun hr => h.root hr.1, ?_, ?_⟩
  · rintro b ⟨hb, -⟩
    obtain ⟨q, hq, hqS⟩ := h.parent b hb
    refine ⟨q, hq, hqS.imp_right fun hqS => ⟨hqS, ?_⟩⟩
    rintro rfl
    exact hleaf b hb hq
  · intro q hq
    have hq' : q = r ∨ q ∈ S := hq.imp_right And.left
    by_cases hqp : q = p
    · subst hqp
      refine ⟨l₁ ++ l₂, ?_, (List.nodup_cons.mp hcl).2, ?_⟩
      · have hrest := hl.visits.remove hl.nodup fun b hb => nomatch hb
        dsimp only
        simp only [hempty]
        split
        · rw [if_pos ‹_›] at hrest
          rw [hpar, setAt_self]
          exact hrest
        · rw [if_neg ‹_›] at hrest
          exact hrest
      · intro b
        have hb := hl.mem b
        rw [List.mem_append, List.mem_cons] at hb
        rw [List.mem_append, Set.mem_sdiff, Set.mem_singleton_iff]
        constructor
        · intro hmem
          obtain ⟨hbS, hbp⟩ := hb.mp (hmem.imp_right Or.inr)
          refine ⟨⟨hbS, ?_⟩, hbp⟩
          rintro rfl
          exact hcnot (List.mem_append.mpr hmem)
        · rintro ⟨⟨hbS, hne⟩, hbp⟩
          exact (hb.mpr ⟨hbS, hbp⟩).imp_right (Or.resolve_left · hne)
    · obtain ⟨l', hl'⟩ := h.children q hq'
      have hother : ∀ b ∈ l', b ∉ l₁ ++ c :: l₂ := by
        intro b hb hmem
        exact hqp (Option.some.inj (((hl'.mem b).mp hb).2.symm.trans ((hl.mem b).mp hmem).2))
      refine ⟨l', hl'.keep ?_ ?_ ?_⟩
      · dsimp only
        split
        · rw [setAt_of_ne]
          rw [hpar]
          exact fun heq => hqp (Option.some.inj heq).symm
        · rfl
      · intro b
        refine and_congr_left fun hbq => and_iff_left ?_
        rintro rfl
        exact hqp (Option.some.inj (hbq.symm.trans hpar))
      · intro b hb
        refine ⟨setAt_of_ne fun heq => hother b hb ?_, setAt_of_ne fun heq => hother b hb ?_⟩
        · exact List.mem_append_right _ (List.mem_cons_of_mem _ (hold b heq))
        · exact List.mem_append_left _ (hyoung b heq)

/-! ### All children move to another parent -/

/-- The children `l` of `p` are left.  The first of them may have a stale link. -/
structure Adopting (f : Links α) (r : α) (S : Set α) (p : α) (l : List α) : Prop where
  root : r ∉ S
  parent : ∀ c ∈ S, ∃ p, f.parent c = some p ∧ (p = r ∨ p ∈ S)
  children : ∀ q, q ≠ p → q = r ∨ q ∈ S → ∃ l, Children f S q none l
  left : ∃ prev, Children f S p prev l

omit [DecidableEq α] in
theorem IsForest.adopting (h : IsForest f r S) (hl : Children f S p none l) : Adopting f r S p l :=
  ⟨h.root, h.parent, fun q _ hq => h.children q hq, none, hl⟩

omit [DecidableEq α] in
theorem Adopting.first (h : Adopting f r S p l) : f.first p = l.head? := by
  obtain ⟨prev, hl⟩ := h.left
  exact hl.visits.head

omit [DecidableEq α] in
theorem Adopting.isForest (h : Adopting f r S p []) : IsForest f r S := by
  refine ⟨h.root, h.parent, ?_⟩
  intro q hq
  by_cases hqp : q = p
  · subst hqp
    obtain ⟨prev, hl⟩ := h.left
    exact ⟨[], hl.visits, hl.nodup, hl.mem⟩
  · exact h.children q hqp hq

/-- **A child is adopted.** -/
theorem Adopting.adopt (h : Adopting f r S p (c :: l)) (hip : i ≠ p) (hic : i ≠ c)
    (hi : i = r ∨ i ∈ S) : Adopting (f.adopt c p i) r S p l := by
  obtain ⟨prev, hl⟩ := h.left
  obtain ⟨li, hli⟩ := h.children i hip hi
  obtain ⟨hcS, hcp⟩ := (hl.mem c).mp List.mem_cons_self
  have hcl : c ∉ l := (List.nodup_cons.mp hl.nodup).1
  have hfirst : update f.first p (f.older c) i = f.first i := update_of_ne hip _ _
  have hnot : ∀ q, q ≠ p → ∀ {l'} {prev : Option α}, Children f S q prev l' → c ∉ l' := by
    intro q hqp l' prev hl' hmem
    exact hqp (Option.some.inj (((hl'.mem c).mp hmem).2.symm.trans hcp))
  have hparent : ∀ b, b ≠ c → (f.adopt c p i).parent b = f.parent b := fun b hb => update_of_ne hb _ _
  have hself : (f.adopt c p i).parent c = some i := update_self _ _ _
  have hmem : ∀ q, q ≠ i → ∀ b, b ∈ S ∧ (f.adopt c p i).parent b = some q ↔
      b ≠ c ∧ b ∈ S ∧ f.parent b = some q := by
    intro q hqi b
    by_cases hb : b = c
    · subst hb
      rw [hself]
      exact iff_of_false (fun hand => hqi (Option.some.inj hand.2).symm) fun hand => hand.1 rfl
    · rw [hparent b hb]
      exact (and_iff_right hb).symm
  have hyounger : (f.adopt c p i).younger = setAt (update f.younger c none) (f.first i) (some c) := by
    show setAt _ (update f.first p (f.older c) i) _ = _
    rw [hfirst]
  have holder : (f.adopt c p i).older = update f.older c (f.first i) := by
    show update f.older c (update f.first p (f.older c) i) = _
    rw [hfirst]
  have hlinks : ∀ q, q ≠ i → ∀ {l'} {prev : Option α}, Children f S q prev l' → ∀ b ∈ l', b ≠ c →
      (f.adopt c p i).younger b = f.younger b ∧ (f.adopt c p i).older b = f.older b := by
    intro q hqi l' prev hl' b hb hbc
    rw [hyounger, holder, setAt_of_ne (hli.first_ne hl' hqi b hb), update_of_ne hbc,
      update_of_ne hbc]
    exact ⟨rfl, rfl⟩
  refine ⟨h.root, ?_, ?_, some c, ?_⟩
  · intro b hb
    by_cases hbc : b = c
    · exact ⟨i, hbc ▸ hself, hi⟩
    · rw [hparent b hbc]
      exact h.parent b hb
  · intro q hqp hq
    by_cases hqi : q = i
    · subst hqi
      have hcli := hnot q hqp hli
      refine ⟨c :: li, ⟨update_self _ _ _, ?_, ?_⟩, List.nodup_cons.mpr ⟨hcli, hli.nodup⟩, ?_⟩
      · rw [hyounger, setAt_of_ne, update_self]
        intro heq
        rw [hli.visits.head] at heq
        exact hcli (List.mem_of_mem_head? heq)
      · rw [hyounger, holder, update_self]
        exact ((hli.visits.update_prev hcli none).setPrev hli.nodup (some c)).update_next hcli _
      · intro b
        rw [List.mem_cons, hli.mem b]
        by_cases hbc : b = c
        · subst hbc
          rw [hself]
          exact iff_of_true (Or.inl rfl) ⟨hcS, rfl⟩
        · rw [hparent b hbc]
          exact or_iff_right hbc
    · obtain ⟨l', hl'⟩ := h.children q hqp hq
      have hcl' := hnot q hqp hl'
      refine ⟨l', hl'.keep ?_ ?_ fun b hb => hlinks q hqi hl' b hb (ne_of_mem_of_not_mem hb hcl')⟩
      · show update (update f.first p (f.older c)) i (some c) q = _
        rw [update_of_ne hqi, update_of_ne hqp]
      · intro b
        rw [hmem q hqi]
        refine and_iff_right_of_imp fun hb => ?_
        exact ne_of_mem_of_not_mem ((hl'.mem b).mpr hb) hcl'
  · refine ⟨?_, (List.nodup_cons.mp hl.nodup).2, ?_⟩
    · have hfirst' : (f.adopt c p i).first p = f.older c := by
        show update (update f.first p (f.older c)) i (some c) p = _
        rw [update_of_ne hip.symm, update_self]
      rw [hfirst']
      refine hl.visits.2.2.congr (fun b hb => ?_) fun b hb => ?_
      · exact (hlinks p hip.symm hl b (List.mem_cons_of_mem _ hb) (ne_of_mem_of_not_mem hb hcl)).2
      · exact (hlinks p hip.symm hl b (List.mem_cons_of_mem _ hb) (ne_of_mem_of_not_mem hb hcl)).1
    · intro b
      rw [hmem p hip.symm, ← hl.mem b, List.mem_cons]
      constructor
      · intro hb
        exact ⟨ne_of_mem_of_not_mem hb hcl, Or.inr hb⟩
      · rintro ⟨hbc, hb⟩
        exact hb.resolve_left hbc

end Operations

end Ucore.Forest
