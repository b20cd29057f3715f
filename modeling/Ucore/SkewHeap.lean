import Mathlib.Data.Int.Notation
import Ucore.Lib.HeapTree

/-!
# The functions of `libs/skew_heap.h`

A `skew_heap_entry_t` has the pointers to its parent and its children.  `skewHeapMerge` recurses on the
right spines of its heaps; `depth` bounds the recursion, and `none` says that it goes deeper.

`merge_spec` is what a merge does: the nodes of the two heaps are the nodes of the result, in heap order
for every key that `comp` compares.  `insert_spec` and `remove_root_spec` follow from it.
-/

namespace Ucore

open HeapTree HeapTree.BinTree Function

section Functions

variable {α : Type*} [DecidableEq α]

def HeapTree.Links.setParent (L : Links α) (a : α) (p : Option α) : Links α :=
  { L with parent := update L.parent a p }

def HeapTree.Links.setLeft (L : Links α) (a : α) (c : Option α) : Links α :=
  { L with left := update L.left a c }

def HeapTree.Links.setRight (L : Links α) (a : α) (c : Option α) : Links α :=
  { L with right := update L.right a c }

/-- The assignments after the recursive call: `a` gets the children `l` and `r`. -/
def setChildren (a : α) (l r : Option α) (L : Links α) : Links α :=
  let L := (L.setLeft a l).setRight a r
  match l with
  | some c => L.setParent c (some a)
  | none => L

/-- `skew_heap_merge`. -/
def skewHeapMerge (comp : α → α → ℤ) : ℕ → Option α → Option α → Links α → Option (Option α × Links α)
  | 0, _, _, _ => none
  | _ + 1, none, b, L => some (b, L)
  | _ + 1, some a, none, L => some (some a, L)
  | depth + 1, some a, some b, L =>
    if comp a b = -1 then do
      let r := L.left a
      let (l, L) ← skewHeapMerge comp depth (L.right a) (some b) L
      some (some a, setChildren a l r L)
    else do
      let r := L.left b
      let (l, L) ← skewHeapMerge comp depth (some a) (L.right b) L
      some (some b, setChildren b l r L)

/-- `skew_heap_init`. -/
def skewHeapInit (a : α) (L : Links α) : Links α :=
  ((L.setLeft a none).setRight a none).setParent a none

/-- `skew_heap_insert`. -/
def skewHeapInsert (comp : α → α → ℤ) (depth : ℕ) (a : Option α) (b : α) (L : Links α) :
    Option (Option α × Links α) :=
  skewHeapMerge comp depth a (some b) (skewHeapInit b L)

/-- `skew_heap_remove`. -/
def skewHeapRemove (comp : α → α → ℤ) (depth : ℕ) (a : Option α) (b : α) (L : Links α) :
    Option (Option α × Links α) := do
  let p := L.parent b
  let (rep, L) ← skewHeapMerge comp depth (L.left b) (L.right b) L
  let L := match rep with
    | some rep => L.setParent rep p
    | none => L
  match p with
  | some p => some (a, if L.left p = some b then L.setLeft p rep else L.setRight p rep)
  | none => some (rep, L)

end Functions

section Depth

variable {α : Type*} [DecidableEq α] {comp : α → α → ℤ} {L : Links α} {a : Option α} {b : α}
  {depth depth' : ℕ} {x : Option α × Links α}

/-- A merge that comes back does not need more depth. -/
theorem skewHeapMerge_mono {b : Option α} (h : skewHeapMerge comp depth a b L = some x)
    (hle : depth ≤ depth') : skewHeapMerge comp depth' a b L = some x := by
  induction depth generalizing a b L x depth' with
  | zero => cases h
  | succ depth ih =>
    obtain ⟨depth', rfl⟩ := Nat.exists_eq_succ_of_ne_zero (Nat.ne_zero_of_lt hle)
    replace hle := Nat.le_of_succ_le_succ hle
    cases a with
    | none => exact h
    | some a =>
      cases b with
      | none => exact h
      | some b =>
        rw [skewHeapMerge] at h ⊢
        by_cases hlt : comp a b = -1
        · rw [if_pos hlt] at h ⊢
          obtain ⟨y, hy, hx⟩ := Option.bind_eq_some_iff.1 h
          exact Option.bind_eq_some_iff.2 ⟨y, ih hy hle, hx⟩
        · rw [if_neg hlt] at h ⊢
          obtain ⟨y, hy, hx⟩ := Option.bind_eq_some_iff.1 h
          exact Option.bind_eq_some_iff.2 ⟨y, ih hy hle, hx⟩

theorem skewHeapInsert_mono (h : skewHeapInsert comp depth a b L = some x) (hle : depth ≤ depth') :
    skewHeapInsert comp depth' a b L = some x := skewHeapMerge_mono h hle

theorem skewHeapRemove_mono (h : skewHeapRemove comp depth a b L = some x) (hle : depth ≤ depth') :
    skewHeapRemove comp depth' a b L = some x := by
  obtain ⟨y, hy, hx⟩ := Option.bind_eq_some_iff.1 h
  exact Option.bind_eq_some_iff.2 ⟨y, skewHeapMerge_mono hy hle, hx⟩

end Depth

variable {α β : Type*} [DecidableEq α] [LinearOrder β] {comp : α → α → ℤ} {key : α → β}
  {L L' : Links α} {a b : α} {l r s t u : BinTree α}

/-- `comp` compares the keys of the nodes. -/
def Compares (comp : α → α → ℤ) (key : α → β) (nodes : List α) : Prop :=
  ∀ a ∈ nodes, ∀ b ∈ nodes, comp a b = -1 ↔ key a < key b

theorem setChildren_left (c : Option α) (d : Option α) (x : α) :
    (setChildren a c d L).left x = if x = a then c else L.left x := by
  cases c <;> simp [setChildren, Links.setLeft, Links.setRight, Links.setParent, update_apply]

theorem setChildren_right (c : Option α) (d : Option α) (x : α) :
    (setChildren a c d L).right x = if x = a then d else L.right x := by
  cases c <;> simp [setChildren, Links.setLeft, Links.setRight, Links.setParent, update_apply]

theorem setChildren_parent (c : Option α) (d : Option α) (x : α) :
    (setChildren a c d L).parent x = if x ∈ c then some a else L.parent x := by
  cases c <;> simp [setChildren, Links.setLeft, Links.setRight, Links.setParent, update_apply, eq_comm]

/-- The pointers of the nodes in `nodes` only have changed. -/
structure Within (L L' : Links α) (nodes : List α) : Prop where
  left : ∀ x, x ∉ nodes → L'.left x = L.left x
  right : ∀ x, x ∉ nodes → L'.right x = L.right x
  parent : ∀ x, x ∉ nodes → L'.parent x = L.parent x

/-- What an operation makes of the nodes in `nodes`: the tree `t`.  The parent of its root is the one
that this node had. -/
structure Makes (L L' : Links α) (nodes : List α) (t : BinTree α) : Prop where
  shape : t.Shape L'
  perm : t.nodes.Perm nodes
  within : Within L L' nodes
  parent : ∀ c ∈ t.root, L'.parent c = L.parent c

/-- A node over the tree that was made and over a tree that was its child before. -/
theorem Makes.setChildren {nodes : List α} (hm : Makes L L' nodes t) (hl : l.Shape L)
    (hpl : ∀ c ∈ l.root, L.parent c = some a) (hnodup : (a :: (nodes ++ l.nodes)).Nodup) :
    Makes L (Ucore.setChildren a t.root l.root L') (a :: (nodes ++ l.nodes)) (.node a t l) := by
  obtain ⟨hnot, hnodup⟩ := List.nodup_cons.1 hnodup
  obtain ⟨hnodes, hlnodup, hdisj⟩ := List.nodup_append.1 hnodup
  have hat : a ∉ t.nodes := fun ha => hnot (List.mem_append_left _ (hm.perm.mem_iff.1 ha))
  have hal : a ∉ l.nodes := fun ha => hnot (List.mem_append_right _ ha)
  have hlout : ∀ c ∈ l.nodes, c ∉ nodes := fun c hc hn => hdisj c hn c hc rfl
  have hlt : ∀ c ∈ l.nodes, c ∉ t.root := fun c hc hr => hlout c hc (hm.perm.mem_iff.1 (root_mem hr))
  have hleft : ∀ x, x ≠ a → (Ucore.setChildren a t.root l.root L').left x = L'.left x := fun x hx => by
    rw [setChildren_left, if_neg hx]
  have hright : ∀ x, x ≠ a → (Ucore.setChildren a t.root l.root L').right x = L'.right x := fun x hx => by
    rw [setChildren_right, if_neg hx]
  have hparent : ∀ x, x ∉ t.root → (Ucore.setChildren a t.root l.root L').parent x = L'.parent x :=
    fun x hx => by rw [setChildren_parent, if_neg hx]
  refine ⟨⟨?_, ?_, ?_, ?_, ?_, ?_⟩, ?_, ⟨fun x hx => ?_, fun x hx => ?_, fun x hx => ?_⟩, ?_⟩
  · rw [setChildren_left, if_pos rfl]
  · rw [setChildren_right, if_pos rfl]
  · intro c hc
    rw [setChildren_parent, if_pos hc]
  · intro c hc
    rw [hparent c (hlt c (root_mem hc)), hm.within.parent c (hlout c (root_mem hc))]
    exact hpl c hc
  · refine hm.shape.congr (hm.perm.nodup_iff.2 hnodes) (fun c hc => hleft c ?_) (fun c hc => hright c ?_)
      fun c _ hr => hparent c hr
    · exact fun heq => hat (heq ▸ hc)
    · exact fun heq => hat (heq ▸ hc)
  · refine hl.congr hlnodup (fun c hc => ?_) (fun c hc => ?_) fun c hc _ => ?_
    · rw [hleft c fun heq => hal (heq ▸ hc), hm.within.left c (hlout c hc)]
    · rw [hright c fun heq => hal (heq ▸ hc), hm.within.right c (hlout c hc)]
    · rw [hparent c (hlt c hc), hm.within.parent c (hlout c hc)]
  · exact (hm.perm.append_right _).cons a
  · rw [List.mem_cons, List.mem_append, not_or, not_or] at hx
    rw [hleft x hx.1, hm.within.left x hx.2.1]
  · rw [List.mem_cons, List.mem_append, not_or, not_or] at hx
    rw [hright x hx.1, hm.within.right x hx.2.1]
  · rw [List.mem_cons, List.mem_append, not_or, not_or] at hx
    rw [hparent x fun hr => hx.2.1 (hm.perm.mem_iff.1 (root_mem hr)), hm.within.parent x hx.2.1]
  · rintro c ⟨rfl⟩
    rw [hparent a fun hr => hat (root_mem hr)]
    exact hm.within.parent a fun hn => hnot (List.mem_append_left _ hn)

omit [DecidableEq α] in
theorem Makes.of_shape (h : t.Shape L) : Makes L L t.nodes t :=
  ⟨h, .refl _, ⟨fun _ _ => rfl, fun _ _ => rfl, fun _ _ => rfl⟩, fun _ _ => rfl⟩

omit [DecidableEq α] in
theorem Makes.of_perm {nodes nodes' : List α} (h : Makes L L' nodes t) (hperm : nodes.Perm nodes') :
    Makes L L' nodes' t :=
  ⟨h.shape, h.perm.trans hperm, ⟨fun x hx => h.within.left x fun hn => hx (hperm.mem_iff.1 hn),
    fun x hx => h.within.right x fun hn => hx (hperm.mem_iff.1 hn),
    fun x hx => h.within.parent x fun hn => hx (hperm.mem_iff.1 hn)⟩, h.parent⟩

omit [DecidableEq α] in
theorem Compares.subset {nodes nodes' : List α} (h : Compares comp key nodes)
    (hsub : ∀ a ∈ nodes', a ∈ nodes) : Compares comp key nodes' :=
  fun a ha b hb => h a (hsub a ha) b (hsub b hb)

/-- The root with the smaller key goes on top. -/
theorem skewHeapMerge_left {depth : ℕ} (hs : (BinTree.node a l r).Shape L) (hlt : comp a b = -1) :
    skewHeapMerge comp (depth + 1) (some a) (some b) L =
      (skewHeapMerge comp depth r.root (some b) L).map fun x =>
        (some a, setChildren a x.1 l.root x.2) := by
  rw [skewHeapMerge, if_pos hlt, hs.1, hs.2.1]
  cases skewHeapMerge comp depth r.root (some b) L with
  | none => rfl
  | some x => rfl

theorem skewHeapMerge_right {depth : ℕ} (ht : (BinTree.node b l r).Shape L) (hlt : comp a b ≠ -1) :
    skewHeapMerge comp (depth + 1) (some a) (some b) L =
      (skewHeapMerge comp depth (some a) r.root L).map fun x =>
        (some b, setChildren b x.1 l.root x.2) := by
  rw [skewHeapMerge, if_neg hlt, ht.1, ht.2.1]
  cases skewHeapMerge comp depth (some a) r.root L with
  | none => rfl
  | some x => rfl

omit [DecidableEq α] in
/-- A node over the merged trees, if its key is at most theirs. -/
theorem ordered_node {nodes : List α} (hperm : u.nodes.Perm nodes) (hu : u.Ordered key)
    (hl : l.Ordered key) (hle : ∀ c ∈ nodes ++ l.nodes, key a ≤ key c) :
    (BinTree.node a u l).Ordered key :=
  ⟨fun c hc => hle c ((hperm.append_right _).mem_iff.1 hc), hu, hl⟩

variable (β comp) in
/-- **A merge** makes one heap of two. -/
theorem merge_spec (hs : s.Shape L) (ht : t.Shape L) (hnodup : (s.nodes ++ t.nodes).Nodup) :
    ∃ u L', (∀ depth, s.nodes.length + t.nodes.length < depth →
        skewHeapMerge comp depth s.root t.root L = some (u.root, L')) ∧
      Makes L L' (s.nodes ++ t.nodes) u ∧ (u.root = s.root ∨ u.root = t.root) ∧
      ∀ key : α → β, Compares comp key (s.nodes ++ t.nodes) → s.Ordered key → t.Ordered key →
        u.Ordered key := by
  -- on the number of nodes: the recursive calls leave out a root and its left subtree
  induction hn : s.nodes.length + t.nodes.length using Nat.strongRecOn generalizing s t with
  | _ n ih =>
    cases s with
    | nil =>
      refine ⟨t, L, fun depth hdepth => ?_, Makes.of_shape ht, .inr rfl, fun _ _ _ ht => ht⟩
      cases depth with
      | zero => exact absurd hdepth (Nat.not_lt_zero _)
      | succ depth => rfl
    | node a l r =>
      cases t with
      | nil =>
        refine ⟨.node a l r, L, fun depth hdepth => ?_, ?_, .inl rfl, fun _ _ hs _ => hs⟩
        · cases depth with
          | zero => exact absurd hdepth (Nat.not_lt_zero _)
          | succ depth => rfl
        · rw [show (BinTree.nil : BinTree α).nodes = [] from rfl, List.append_nil]
          exact Makes.of_shape hs
      | node b l' r' =>
        by_cases hlt : comp a b = -1
        · -- the nodes with `a` and its left subtree taken out
          have hperm : (a :: ((r.nodes ++ (BinTree.node b l' r').nodes) ++ l.nodes)).Perm
              ((BinTree.node a l r).nodes ++ (BinTree.node b l' r').nodes) := by
            have hcomm : ((r.nodes ++ (BinTree.node b l' r').nodes) ++ l.nodes).Perm
                (l.nodes ++ (r.nodes ++ (BinTree.node b l' r').nodes)) := List.perm_append_comm
            rw [← List.append_assoc] at hcomm
            exact hcomm.cons a
          have hnodup' := hperm.nodup_iff.2 hnodup
          have hlen : r.nodes.length + (BinTree.node b l' r').nodes.length < n := by
            rw [← hn, show (BinTree.node a l r).nodes = a :: (l.nodes ++ r.nodes) from rfl,
              List.length_cons, List.length_append]
            omega
          obtain ⟨u, L', hrun, hmakes, -, hord⟩ := ih _ hlen hs.2.2.2.2.2 ht
            (List.nodup_append.1 (List.nodup_cons.1 hnodup').2).1 rfl
          refine ⟨.node a u l, setChildren a u.root l.root L', fun depth hdepth => ?_,
            (hmakes.setChildren hs.2.2.2.2.1 hs.2.2.1 hnodup').of_perm hperm, .inl rfl, fun key hcomp hsk htk => ?_⟩
          · cases depth with
            | zero => exact absurd hdepth (Nat.not_lt_zero _)
            | succ depth =>
              have hrun' := hrun depth (by omega)
              show skewHeapMerge comp (depth + 1) (some a) (some b) L = _
              rw [skewHeapMerge_left hs hlt]
              exact congrArg (Option.map _) hrun'
          · have hab : key a < key b := (hcomp a (by simp [BinTree.nodes]) b (by simp [BinTree.nodes])).1 hlt
            refine ordered_node hmakes.perm (hord key (hcomp.subset fun c hc => ?_) hsk.2.2 htk)
              hsk.2.1 fun c hc => ?_
            · exact hperm.mem_iff.1 (List.mem_cons_of_mem a (List.mem_append_left _ hc))
            · rw [List.mem_append, List.mem_append] at hc
              rcases hc with (hc | hc) | hc
              · exact hsk.1 c (List.mem_append_right _ hc)
              · exact hab.le.trans (htk.le rfl hc)
              · exact hsk.1 c (List.mem_append_left _ hc)
        · have hperm : (b :: (((BinTree.node a l r).nodes ++ r'.nodes) ++ l'.nodes)).Perm
              ((BinTree.node a l r).nodes ++ (BinTree.node b l' r').nodes) := by
            have hcomm : (r'.nodes ++ l'.nodes).Perm (l'.nodes ++ r'.nodes) := List.perm_append_comm
            rw [List.append_assoc]
            exact ((hcomm.append_left _).cons b).trans List.perm_middle.symm
          have hnodup' := hperm.nodup_iff.2 hnodup
          have hlen : (BinTree.node a l r).nodes.length + r'.nodes.length < n := by
            rw [← hn, show (BinTree.node b l' r').nodes = b :: (l'.nodes ++ r'.nodes) from rfl,
              List.length_cons, List.length_append]
            omega
          obtain ⟨u, L', hrun, hmakes, -, hord⟩ := ih _ hlen hs ht.2.2.2.2.2
            (List.nodup_append.1 (List.nodup_cons.1 hnodup').2).1 rfl
          refine ⟨.node b u l', setChildren b u.root l'.root L', fun depth hdepth => ?_,
            (hmakes.setChildren ht.2.2.2.2.1 ht.2.2.1 hnodup').of_perm hperm, .inr rfl, fun key hcomp hsk htk => ?_⟩
          · cases depth with
            | zero => exact absurd hdepth (Nat.not_lt_zero _)
            | succ depth =>
              have hrun' := hrun depth (by omega)
              show skewHeapMerge comp (depth + 1) (some a) (some b) L = _
              rw [skewHeapMerge_right ht hlt]
              exact congrArg (Option.map _) hrun'
          · have hba : key b ≤ key a := by
              refine not_lt.1 fun hab => hlt ?_
              exact (hcomp a (by simp [BinTree.nodes]) b (by simp [BinTree.nodes])).2 hab
            refine ordered_node hmakes.perm (hord key (hcomp.subset fun c hc => ?_) hsk htk.2.2)
              htk.2.1 fun c hc => ?_
            · exact hperm.mem_iff.1 (List.mem_cons_of_mem b (List.mem_append_left _ hc))
            · rw [List.mem_append, List.mem_append] at hc
              rcases hc with (hc | hc) | hc
              · exact hba.trans (hsk.le rfl hc)
              · exact htk.1 c (List.mem_append_right _ hc)
              · exact htk.1 c (List.mem_append_left _ hc)

variable (β comp) in
/-- **An insertion** adds the node, whatever its pointers were. -/
theorem insert_spec (hs : s.Shape L) (hroot : ∀ c ∈ s.root, L.parent c = none)
    (hnodup : s.nodes.Nodup) (hb : b ∉ s.nodes) :
    ∃ (u : BinTree α) (L' : Links α), (∀ depth, s.nodes.length + 1 < depth →
        skewHeapInsert comp depth s.root b L = some (u.root, L')) ∧
      u.Shape L' ∧ u.nodes.Perm (b :: s.nodes) ∧ (∀ c ∈ u.root, L'.parent c = none) ∧
      ∀ key : α → β, Compares comp key (b :: s.nodes) → s.Ordered key → u.Ordered key := by
  have hne : ∀ c ∈ s.nodes, c ≠ b := fun c hc heq => hb (heq ▸ hc)
  have hb' : (BinTree.node b .nil .nil).Shape (skewHeapInit b L) :=
    ⟨update_self _ _ _, update_self _ _ _, nofun, nofun, trivial, trivial⟩
  have hs' : s.Shape (skewHeapInit b L) := by
    refine hs.congr hnodup (fun c hc => ?_) (fun c hc => ?_) fun c hc _ => ?_
    · exact update_of_ne (hne c hc) _ _
    · exact update_of_ne (hne c hc) _ _
    · exact update_of_ne (hne c hc) _ _
  have hperm : ([b] ++ s.nodes).Perm (s.nodes ++ (BinTree.node b .nil .nil).nodes) :=
    List.perm_append_comm
  obtain ⟨u, L', hrun, hmakes, hrootu, hord⟩ := merge_spec β comp hs' hb'
    (hperm.nodup_iff.1 (List.nodup_cons.2 ⟨hb, hnodup⟩))
  refine ⟨u, L', hrun, hmakes.shape, hmakes.perm.trans hperm.symm, fun c hc => ?_, fun key hcomp hsk =>
    hord key (hcomp.subset fun c hc => hperm.mem_iff.2 hc) hsk ⟨nofun, trivial, trivial⟩⟩
  rw [hmakes.parent c hc]
  rcases hrootu with heq | heq
  · rw [heq] at hc
    exact (update_of_ne (hne c (root_mem hc)) _ _).trans (hroot c hc)
  · rw [heq] at hc
    cases hc
    exact update_self _ _ _

variable (β comp) in
/-- **Removing the root** leaves the merged subtrees. -/
theorem remove_root_spec (hs : (BinTree.node b l r).Shape L) (hroot : L.parent b = none)
    (hnodup : (BinTree.node b l r).nodes.Nodup) (a : Option α) :
    ∃ (u : BinTree α) (L' : Links α), (∀ depth, l.nodes.length + r.nodes.length < depth →
        skewHeapRemove comp depth a b L = some (u.root, L')) ∧
      u.Shape L' ∧ u.nodes.Perm (l.nodes ++ r.nodes) ∧ (∀ c ∈ u.root, L'.parent c = none) ∧
      ∀ key : α → β, Compares comp key (l.nodes ++ r.nodes) → l.Ordered key → r.Ordered key →
        u.Ordered key := by
  obtain ⟨hnot, hnodup'⟩ := List.nodup_cons.1 hnodup
  obtain ⟨u, L', hrun, hmakes, -, hord⟩ :=
    merge_spec β comp hs.2.2.2.2.1 hs.2.2.2.2.2 hnodup'
  have hu := hmakes.perm.nodup_iff.2 hnodup'
  cases huroot : u.root with
  | none =>
    refine ⟨u, L', fun depth hdepth => ?_, hmakes.shape, hmakes.perm, fun c hc => ?_, hord⟩
    · simp only [skewHeapRemove, hs.1, hs.2.1, hrun depth hdepth, huroot, hroot, Option.bind_eq_bind,
        Option.bind_some]
    · rw [huroot] at hc
      cases hc
  | some c =>
    refine ⟨u, L'.setParent c none, fun depth hdepth => ?_, ?_, hmakes.perm, fun d hd => ?_, hord⟩
    · simp only [skewHeapRemove, hs.1, hs.2.1, hrun depth hdepth, huroot, hroot, Option.bind_eq_bind,
        Option.bind_some]
    · refine hmakes.shape.congr hu (fun _ _ => rfl) (fun _ _ => rfl) fun d _ hd => ?_
      refine update_of_ne (fun heq => hd ?_) _ _
      rw [huroot, heq]
      rfl
    · rw [huroot] at hd
      cases hd
      exact update_self _ _ _

end Ucore
