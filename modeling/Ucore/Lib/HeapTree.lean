import Mathlib.Data.List.Nodup
import Mathlib.Logic.Function.Basic
import Mathlib.Order.Lattice

/-!
# Binary trees in memory, in heap order

`Links` has the pointers of all nodes to their parents and children, and `Shape L t` says that the
pointers from the root of `t` on are those of the tree `t`.  The pointer of the root to its parent is
not part of it: an operation on a subtree leaves it to its caller.

`Ordered key t`: no node has a larger key than a node below it.
-/

namespace Ucore.HeapTree

open Function

variable {α : Type*}

/-- The pointers of all nodes. -/
structure Links (α : Type*) where
  parent : α → Option α
  left : α → Option α
  right : α → Option α

inductive BinTree (α : Type*)
  | nil
  | node (a : α) (left right : BinTree α)

namespace BinTree

def root : BinTree α → Option α
  | nil => none
  | node a _ _ => some a

/-- The nodes, the root first. -/
def nodes : BinTree α → List α
  | nil => []
  | node a l r => a :: (l.nodes ++ r.nodes)

theorem root_mem {t : BinTree α} {a : α} (h : a ∈ t.root) : a ∈ t.nodes := by
  cases t with
  | nil => cases h
  | node b l r =>
    cases h
    exact List.mem_cons_self

/-- The pointers are those of the tree. -/
def Shape (L : Links α) : BinTree α → Prop
  | nil => True
  | node a l r => L.left a = l.root ∧ L.right a = r.root ∧ (∀ c ∈ l.root, L.parent c = some a) ∧
      (∀ c ∈ r.root, L.parent c = some a) ∧ Shape L l ∧ Shape L r

/-- The pointers of other nodes do not matter, nor does that of the root to its parent. -/
theorem Shape.congr {L L' : Links α} {t : BinTree α} (h : Shape L t) (hnodup : t.nodes.Nodup)
    (hleft : ∀ a ∈ t.nodes, L'.left a = L.left a) (hright : ∀ a ∈ t.nodes, L'.right a = L.right a)
    (hparent : ∀ a ∈ t.nodes, a ∉ t.root → L'.parent a = L.parent a) : Shape L' t := by
  induction t with
  | nil => trivial
  | node a l r ihl ihr =>
    obtain ⟨hl, hr, hpl, hpr, hsl, hsr⟩ := h
    obtain ⟨hnot, hnodup⟩ := List.nodup_cons.1 hnodup
    obtain ⟨hnl, hnr, -⟩ := List.nodup_append.1 hnodup
    have hmeml : ∀ c ∈ l.nodes, c ∈ (node a l r).nodes := fun c hc =>
      List.mem_cons_of_mem a (List.mem_append_left _ hc)
    have hmemr : ∀ c ∈ r.nodes, c ∈ (node a l r).nodes := fun c hc =>
      List.mem_cons_of_mem a (List.mem_append_right _ hc)
    -- no node of a subtree is the root
    have hpar : ∀ c ∈ l.nodes ++ r.nodes, L'.parent c = L.parent c := by
      intro c hc
      refine hparent c (List.mem_cons_of_mem a hc) ?_
      rintro ⟨rfl⟩
      exact hnot hc
    refine ⟨(hleft a List.mem_cons_self).trans hl, (hright a List.mem_cons_self).trans hr, ?_, ?_, ?_, ?_⟩
    · exact fun c hc => (hpar c (List.mem_append_left _ (root_mem hc))).trans (hpl c hc)
    · exact fun c hc => (hpar c (List.mem_append_right _ (root_mem hc))).trans (hpr c hc)
    · exact ihl hsl hnl (fun c hc => hleft c (hmeml c hc)) (fun c hc => hright c (hmeml c hc))
        fun c hc _ => hpar c (List.mem_append_left _ hc)
    · exact ihr hsr hnr (fun c hc => hleft c (hmemr c hc)) (fun c hc => hright c (hmemr c hc))
        fun c hc _ => hpar c (List.mem_append_right _ hc)

/-! ### Heap order -/

variable {β : Type*} [LinearOrder β]

/-- Every key is at most those below it. -/
def Ordered (key : α → β) : BinTree α → Prop
  | nil => True
  | node a l r => (∀ c ∈ l.nodes ++ r.nodes, key a ≤ key c) ∧ Ordered key l ∧ Ordered key r

theorem Ordered.le {key : α → β} {t : BinTree α} (h : Ordered key t) {a c : α} (ha : a ∈ t.root)
    (hc : c ∈ t.nodes) : key a ≤ key c := by
  cases t with
  | nil => cases ha
  | node b l r =>
    cases ha
    rcases List.mem_cons.1 hc with rfl | hc
    · exact le_rfl
    · exact h.1 c hc

theorem Ordered.congr {key key' : α → β} {t : BinTree α} (h : Ordered key t)
    (heq : ∀ a ∈ t.nodes, key' a = key a) : Ordered key' t := by
  induction t with
  | nil => trivial
  | node a l r ihl ihr =>
    obtain ⟨hle, hl, hr⟩ := h
    refine ⟨fun c hc => ?_, ihl hl fun c hc => ?_, ihr hr fun c hc => ?_⟩
    · rw [heq a List.mem_cons_self, heq c (List.mem_cons_of_mem a hc)]
      exact hle c hc
    · exact heq c (List.mem_cons_of_mem a (List.mem_append_left _ hc))
    · exact heq c (List.mem_cons_of_mem a (List.mem_append_right _ hc))

end BinTree

end Ucore.HeapTree
