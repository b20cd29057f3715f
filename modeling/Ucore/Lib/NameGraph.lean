import Mathlib.Data.List.Nodup

/-!
# Names in directories

A naming graph gives each directory its entries, which are nodes with names; what is not a directory has
none.  `walk` follows a list of names.  In a tree every directory but the root is entered once, in its
parent, and the name `dotdot` leads to the parent.
-/

namespace Ucore.NameGraph

variable {ι ν : Type*}

/-- The entries of the directories. -/
abbrev Graph (ι ν : Type*) := ι → Option (List (ι × ν))

inductive Fault
  | notDir
  | noEntry
  deriving DecidableEq

section Walk

variable [DecidableEq ν] {g : Graph ι ν} {d p : ι} {name : ν} {names : List ν} {es : List (ι × ν)}

/-- The first entry with a name. -/
def lookup (g : Graph ι ν) (d : ι) (name : ν) : Except Fault ι :=
  match g d with
  | none => .error .notDir
  | some es =>
    match es.find? fun e => e.2 = name with
    | none => .error .noEntry
    | some e => .ok e.1

/-- Name after name. -/
def walk (g : Graph ι ν) : ι → List ν → Except Fault ι
  | d, [] => .ok d
  | d, name :: names =>
    match lookup g d name with
    | .error f => .error f
    | .ok e => walk g e names

/-- With distinct names the entry is found. -/
theorem lookup_of_mem (hd : g d = some es) (hnames : (es.map Prod.snd).Nodup) {e : ι × ν}
    (he : e ∈ es) : lookup g d e.2 = .ok e.1 := by
  cases hfind : es.find? fun e' => decide (e'.2 = e.2) with
  | none =>
    have hnot := List.find?_eq_none.mp hfind e he
    exact absurd (decide_eq_true rfl) hnot
  | some e' =>
    have hname : e'.2 = e.2 := by simpa using List.find?_some hfind
    have hsame : e' = e := List.inj_on_of_nodup_map hnames (List.mem_of_find?_eq_some hfind) he hname
    simp only [lookup, hd, hfind, hsame]

end Walk

section Tree

variable [DecidableEq ν]

/-- A directory tree: `dot` and `dotdot` are the names of a directory for itself and for its parent. -/
structure IsTree (g : Graph ι ν) (root : ι) (dot dotdot : ν) (depth : ι → ℕ) : Prop where
  rootDir : (g root).isSome
  rootDepth : depth root = 0
  rootUp : lookup g root dotdot = .ok root
  names : ∀ p es, g p = some es → (es.map Prod.snd).Nodup
  selfEntry : ∀ p es, g p = some es → ∀ d, (d, dot) ∈ es → d = p
  child : ∀ p es, g p = some es → ∀ d name, (d, name) ∈ es → name ≠ dot → name ≠ dotdot → (g d).isSome →
    lookup g d dotdot = .ok p ∧ depth d = depth p + 1
  once : ∀ p es, g p = some es → ∀ d name name', (d, name) ∈ es → (d, name') ∈ es →
    name ≠ dot → name ≠ dotdot → name' ≠ dot → name' ≠ dotdot → (g d).isSome → name = name'

/-- The directories of the tree, with the names on the path from the root. -/
inductive PathTo (g : Graph ι ν) (root : ι) (dot dotdot : ν) : ι → List ν → Prop
  | root : PathTo g root dot dotdot root []
  | child {p d : ι} {names : List ν} {name : ν} {es : List (ι × ν)} (hp : PathTo g root dot dotdot p names)
      (hes : g p = some es) (he : (d, name) ∈ es) (hself : name ≠ dot) (hup : name ≠ dotdot)
      (hd : (g d).isSome) : PathTo g root dot dotdot d (names ++ [name])

variable {g : Graph ι ν} {root p d : ι} {dot dotdot name : ν} {depth : ι → ℕ} {names : List ν}
  {es : List (ι × ν)}

theorem PathTo.isDir (ht : IsTree g root dot dotdot depth) (h : PathTo g root dot dotdot d names) :
    (g d).isSome := by
  cases h with
  | root => exact ht.rootDir
  | child _ _ _ _ _ hd => exact hd

/-- Up from a directory of the tree. -/
theorem PathTo.lookup_up (ht : IsTree g root dot dotdot depth) (h : PathTo g root dot dotdot d names) :
    (d = root ∧ lookup g d dotdot = .ok root) ∨
      ∃ p, lookup g d dotdot = .ok p ∧ depth d = depth p + 1 := by
  cases h with
  | root => exact Or.inl ⟨rfl, ht.rootUp⟩
  | @child p _ _ _ es _ hes he hself hup hd => exact Or.inr ⟨p, ht.child p es hes _ _ he hself hup hd⟩

/-- **A directory has one entry in its parent.** -/
theorem PathTo.entry_unique (ht : IsTree g root dot dotdot depth) (hp : PathTo g root dot dotdot p names)
    (hes : g p = some es) (he : (d, name) ∈ es) (hself : name ≠ dot) (hup : name ≠ dotdot)
    (hd : (g d).isSome) {e : ι × ν} (hmem : e ∈ es) (hino : e.1 = d) : e = (d, name) := by
  obtain ⟨d', name'⟩ := e
  cases hino
  have hdepth := (ht.child p es hes d' name he hself hup hd).2
  by_cases hs : name' = dot
  · -- the entry for the directory itself
    subst hs
    have heq := ht.selfEntry p es hes d' hmem
    rw [heq] at hdepth
    omega
  by_cases hu : name' = dotdot
  · -- the entry for the parent of the parent
    subst hu
    have hlook : lookup g p name' = .ok d' := lookup_of_mem hes (ht.names p es hes) hmem
    rcases hp.lookup_up ht with ⟨rfl, hroot⟩ | ⟨q, hq, hqdepth⟩
    · rw [hroot] at hlook
      cases hlook
      omega
    · rw [hq] at hlook
      cases hlook
      omega
  · rw [ht.once p es hes d' name' name hmem he hs hu hself hup hd]

end Tree

end Ucore.NameGraph
