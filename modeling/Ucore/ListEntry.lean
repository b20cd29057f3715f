import Ucore.Lib.Ring

/-!
# The list functions of `libs/list.h`

`list_entry_t` is a pair of pointers inside a larger structure; the functions below are those of
`list.h` on the pointers of all entries.  `whileNext` is the traversal

  `while ((le = list_next(le)) != head) { … }`

that every user of these lists writes, with a body that may `break` but leaves the links alone.
Entries are `Option ε`: `none` is the list head, `some e` the entry inside the element `e`.

On a ring each function is the expected operation on the sequence of its elements.
-/

namespace Ucore

open LinkedRing

section Functions

variable {α : Type*} [DecidableEq α]

/-- `list_init`. -/
def listInit (elm : α) (L : Links α) : Links α where
  prev := Function.update L.prev elm elm
  next := Function.update L.next elm elm

/-- `list_next`. -/
def listNext (L : Links α) (listelm : α) : α := L.next listelm

/-- `list_prev`. -/
def listPrev (L : Links α) (listelm : α) : α := L.prev listelm

/-- `list_empty`. -/
def listEmpty (L : Links α) (list : α) : Bool := L.next list = list

/-- `list_add_after`. -/
def listAddAfter (listelm elm : α) (L : Links α) : Links α :=
  L.insert elm listelm (L.next listelm)

/-- `list_add`. -/
def listAdd (listelm elm : α) (L : Links α) : Links α := listAddAfter listelm elm L

/-- `list_add_before`. -/
def listAddBefore (listelm elm : α) (L : Links α) : Links α :=
  L.insert elm (L.prev listelm) listelm

/-- `list_del`. -/
def listDel (listelm : α) (L : Links α) : Links α :=
  L.remove (L.prev listelm) (L.next listelm)

end Functions

variable {ε β : Type*}

/-- The traversal from `le` on.  The body gets the element and returns the new local variables and
whether it breaks; `none` when the head is not met within the given number of turns. -/
def whileNext (L : Links (Option ε)) (body : β → ε → β × Bool) :
    ℕ → Option ε → β → Option β
  | 0, _, _ => none
  | k + 1, le, acc =>
    match listNext L le with
    | none => some acc
    | some e =>
      let (acc, done) := body acc e
      if done then some acc else whileNext L body k (some e) acc

/-- The same loop over a sequence of elements. -/
def whileList (body : β → ε → β × Bool) : List ε → β → β
  | [], acc => acc
  | e :: es, acc =>
    let (acc, done) := body acc e
    if done then acc else whileList body es acc

/-! ### On a ring -/

/-- The list `es` hangs off the head `none`. -/
abbrev IsList (L : Links (Option ε)) (es : List ε) : Prop := IsRing L none (es.map some)

variable {L : Links (Option ε)} {es us vs : List ε} {e : ε}

/-- The entry before the place between `us` and what follows. -/
def lastEntry (us : List ε) : Option ε := us.getLast?

/-- The entry after the place between what precedes and `vs`. -/
def firstEntry (vs : List ε) : Option ε := vs.head?

theorem cons_map_eq_lastEntry (us : List ε) : ∃ l : List (Option ε),
    none :: us.map some = l ++ [lastEntry us] := by
  rcases List.eq_nil_or_concat us with rfl | ⟨us, c, rfl⟩
  · exact ⟨[], rfl⟩
  · exact ⟨none :: us.map some, by simp [lastEntry]⟩

theorem map_append_eq_firstEntry (vs : List ε) : ∃ l : List (Option ε),
    vs.map some ++ [none] = firstEntry vs :: l := by
  cases vs with
  | nil => exact ⟨[], rfl⟩
  | cons c vs => exact ⟨vs.map some ++ [none], rfl⟩

theorem IsList.neighbours (h : IsList L (us ++ vs)) :
    listNext L (lastEntry us) = firstEntry vs ∧ listPrev L (firstEntry vs) = lastEntry us := by
  obtain ⟨l₁, hu⟩ := cons_map_eq_lastEntry us
  obtain ⟨l₂, hv⟩ := map_append_eq_firstEntry vs
  rw [IsList, List.map_append] at h
  exact h.neighbours hu hv

/-- `list_next` and `list_prev` of an element. -/
theorem IsList.next_some (h : IsList L (us ++ e :: vs)) : listNext L (some e) = firstEntry vs := by
  rw [← List.singleton_append, ← List.append_assoc] at h
  have := h.neighbours.1
  rwa [lastEntry, List.getLast?_append, List.getLast?_singleton, Option.some_or] at this

theorem IsList.prev_some (h : IsList L (us ++ e :: vs)) : listPrev L (some e) = lastEntry us :=
  h.neighbours.2

theorem IsList.next_none (h : IsList L es) : listNext L none = firstEntry es :=
  IsList.neighbours (show IsList L ([] ++ es) from h) |>.1

theorem isList_nil [DecidableEq ε] (L : Links (Option ε)) : IsList (listInit none L) [] :=
  isRing_nil_iff.mpr ⟨by simp [listInit], by simp [listInit]⟩

theorem IsList.listEmpty_iff [DecidableEq ε] (h : IsList L es) :
    listEmpty L none = true ↔ es = [] := by
  have hn := h.next_none
  rw [listNext] at hn
  rw [listEmpty, decide_eq_true_iff, hn]
  cases es <;> simp [firstEntry]

theorem IsList.nodup (h : IsList L es) : es.Nodup :=
  List.Nodup.of_map some (List.nodup_cons.mp (IsRing.nodup h)).2

section Updates

variable [DecidableEq ε]

theorem IsList.insert (h : IsList L (us ++ vs)) (he : e ∉ us ++ vs) :
    IsList (L.insert (some e) (lastEntry us) (firstEntry vs)) (us ++ e :: vs) := by
  obtain ⟨l₁, hu⟩ := cons_map_eq_lastEntry us
  obtain ⟨l₂, hv⟩ := map_append_eq_firstEntry vs
  rw [IsList, List.map_append] at h
  have hmem : some e ∉ none :: (us.map some ++ vs.map some) := by
    rw [← List.map_append, List.mem_cons, List.mem_map]
    rintro (h' | ⟨a, ha, hae⟩)
    · exact Option.some_ne_none e h'
    · exact he (Option.some.inj hae ▸ ha)
  rw [IsList, List.map_append, List.map_cons]
  exact IsRing.insert h hmem hu hv

/-- `list_add_before` at the entry after the place. -/
theorem IsList.addBefore (h : IsList L (us ++ vs)) (he : e ∉ us ++ vs) :
    IsList (listAddBefore (firstEntry vs) (some e) L) (us ++ e :: vs) := by
  have hp := h.neighbours.2
  rw [listPrev] at hp
  rw [listAddBefore, hp]
  exact h.insert he

/-- `list_add` at the entry before the place. -/
theorem IsList.add (h : IsList L (us ++ vs)) (he : e ∉ us ++ vs) :
    IsList (listAdd (lastEntry us) (some e) L) (us ++ e :: vs) := by
  have hn := h.neighbours.1
  rw [listNext] at hn
  rw [listAdd, listAddAfter, hn]
  exact h.insert he

theorem IsList.del (h : IsList L (us ++ e :: vs)) : IsList (listDel (some e) L) (us ++ vs) := by
  rw [IsList, List.map_append, List.map_cons] at h
  rw [IsList, List.map_append]
  exact IsRing.remove h

/-- `list_init` of an entry that is on no list. -/
theorem IsList.init (h : IsList L es) (he : e ∉ es) : IsList (listInit (some e) L) es := by
  have hne : ∀ a, a ∈ (none :: es.map some) ++ [none] → a ≠ some e := by
    rintro a ha rfl
    simp only [List.mem_append, List.mem_cons, List.mem_map, Option.some.injEq, exists_eq_right,
      reduceCtorEq, List.not_mem_nil, or_false, false_or] at ha
    exact he ha
  refine ⟨IsRing.nodup h, Linked.congr (IsRing.linked h) (fun a ha => ?_) fun a ha => ?_⟩
  · exact Function.update_of_ne (hne a (List.dropLast_subset _ ha)) _ _
  · exact Function.update_of_ne (hne a (List.mem_of_mem_tail ha)) _ _

end Updates

/-! ### The traversal -/

theorem IsList.whileNext_from (body : β → ε → β × Bool) : ∀ {us vs : List ε} {k : ℕ} (acc : β),
    IsList L (us ++ vs) → vs.length < k →
      whileNext L body k (lastEntry us) acc = some (whileList body vs acc)
  | us, vs, 0, _, _, hk => absurd hk (Nat.not_lt_zero _)
  | us, vs, k + 1, acc, h, hk => by
    rw [whileNext, h.neighbours.1]
    cases vs with
    | nil => rfl
    | cons e vs =>
      simp only [firstEntry, List.head?_cons, whileList]
      split
      · rfl
      · rw [← List.singleton_append, ← List.append_assoc] at h
        have ih := IsList.whileNext_from body (body acc e).1 h (Nat.lt_of_succ_lt_succ hk)
        rwa [lastEntry, List.getLast?_append, List.getLast?_singleton, Option.some_or] at ih

/-- **Traversal rule.**  On a list the loop visits the elements in order and ends. -/
theorem IsList.whileNext (h : IsList L es) (body : β → ε → β × Bool) {k : ℕ} (hk : es.length < k)
    (acc : β) : Ucore.whileNext L body k none acc = some (whileList body es acc) :=
  IsList.whileNext_from body acc (show IsList L ([] ++ es) from h) hk

/-- A body that does not break on these elements folds over them. -/
theorem whileList_eq_foldl {body : β → ε → β × Bool} {f : β → ε → β} :
    ∀ {es : List ε} (acc : β), (∀ acc, ∀ e ∈ es, body acc e = (f acc e, false)) →
      whileList body es acc = es.foldl f acc
  | [], _, _ => rfl
  | e :: es, acc, h => by
    rw [whileList, h acc e List.mem_cons_self]
    exact whileList_eq_foldl (f acc e) fun acc a ha => h acc a (List.mem_cons_of_mem e ha)

/-- A body that stops at the first element with a property finds it. -/
theorem whileList_find (p : ε → Bool) (es : List ε) :
    whileList (fun acc e => if p e then (some e, true) else (acc, false)) es none = es.find? p := by
  induction es with
  | nil => rfl
  | cons e es ih =>
    rw [whileList, List.find?_cons]
    cases p e
    · exact ih
    · rfl

end Ucore
