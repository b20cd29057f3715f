import Mathlib.Order.Antisymmetrization
import Ucore.SkewHeap

/-!
# Runs of insertions and removals

`skew_heap_remove` takes a node from any place in the heap: the merge of its subtrees takes the place of
the node under its parent (`remove_inner_spec`).  `IsHeap` is what a heap is for its user, in terms of the
comparison alone; every run of insertions and removals comes back and keeps it (`skewHeap_runs`).
-/

namespace Ucore

open HeapTree HeapTree.BinTree Function

universe u

variable {α β : Type*} [DecidableEq α] [LinearOrder β] {comp : α → α → ℤ} {L L' : Links α} {a b p : α}
  {l r s t u v : BinTree α}

/-! ### Removing an inner node -/

/-- `if (rep) rep->parent = p`. -/
def adopt (rep : Option α) (p : Option α) (L : Links α) : Links α :=
  match rep with
  | some rep => L.setParent rep p
  | none => L

theorem skewHeapRemove_eq {depth : ℕ} {a : Option α} {rep : Option α} (hp : L.parent b = some p)
    (hrun : skewHeapMerge comp depth (L.left b) (L.right b) L = some (rep, L')) :
    skewHeapRemove comp depth a b L =
      some (a, if (adopt rep (some p) L').left p = some b then
        (adopt rep (some p) L').setLeft p rep else (adopt rep (some p) L').setRight p rep) := by
  rw [skewHeapRemove, hrun, hp]
  cases rep with
  | none => rfl
  | some c => rfl

@[simp] theorem adopt_left (rep p : Option α) (L : Links α) : (adopt rep p L).left = L.left := by
  cases rep with
  | none => rfl
  | some c => rfl

@[simp] theorem adopt_right (rep p : Option α) (L : Links α) : (adopt rep p L).right = L.right := by
  cases rep with
  | none => rfl
  | some c => rfl

theorem adopt_parent (rep p : Option α) (L : Links α) (x : α) :
    (adopt rep p L).parent x = if x ∈ rep then p else L.parent x := by
  cases rep with
  | none => rfl
  | some c =>
    show update L.parent c p x = _
    rw [update_apply]
    simp only [Option.mem_some_iff, eq_comm]

/-- The merged subtrees under their new parent. -/
theorem Makes.adopt {nodes : List α} (hm : Makes L L' nodes v) (hnodup : nodes.Nodup) (p : Option α) :
    v.Shape (Ucore.adopt v.root p L') ∧ Within L (Ucore.adopt v.root p L') nodes ∧
      ∀ c ∈ v.root, (Ucore.adopt v.root p L').parent c = p := by
  have hv := hm.perm.nodup_iff.2 hnodup
  refine ⟨hm.shape.congr hv (fun x _ => ?_) (fun x _ => ?_) fun x _ hx => ?_,
    ⟨fun x hx => ?_, fun x hx => ?_, fun x hx => ?_⟩, fun c hc => ?_⟩
  · rw [adopt_left]
  · rw [adopt_right]
  · rw [adopt_parent, if_neg hx]
  · rw [adopt_left]
    exact hm.within.left x hx
  · rw [adopt_right]
    exact hm.within.right x hx
  · rw [adopt_parent, if_neg fun hr => hx (hm.perm.mem_iff.1 (root_mem hr))]
    exact hm.within.parent x hx
  · rw [adopt_parent, if_pos hc]

/-- A tree whose root stays where it is. -/
structure Edits (L L' : Links α) (s u : BinTree α) (b : α) : Prop where
  shape : u.Shape L'
  root : u.root = s.root
  perm : (b :: u.nodes).Perm s.nodes
  within : Within L L' s.nodes
  parent : ∀ c ∈ s.root, L'.parent c = L.parent c

omit [DecidableEq α] in
theorem Within.subset {nodes nodes' : List α} (h : Within L L' nodes)
    (hsub : ∀ x ∈ nodes, x ∈ nodes') : Within L L' nodes' :=
  ⟨fun x hx => h.left x fun hn => hx (hsub x hn), fun x hx => h.right x fun hn => hx (hsub x hn),
    fun x hx => h.parent x fun hn => hx (hsub x hn)⟩

omit [DecidableEq α] in
/-- A subtree that the operation does not reach. -/
theorem Within.shape {nodes : List α} (h : Within L L' nodes) (hs : s.Shape L) (hnodup : s.nodes.Nodup)
    (hdisj : ∀ x ∈ s.nodes, x ∉ nodes) : s.Shape L' :=
  hs.congr hnodup (fun x hx => h.left x (hdisj x hx)) (fun x hx => h.right x (hdisj x hx))
    fun x hx _ => h.parent x (hdisj x hx)

variable (β comp) in
/-- The subtrees of a node are merged and hung below its parent. -/
theorem remove_child_spec (hs : (BinTree.node b l r).Shape L) (hp : L.parent b = some p)
    (hnodup : (BinTree.node b l r).nodes.Nodup) (hpnot : p ∉ l.nodes ++ r.nodes) :
    ∃ (v : BinTree α) (L₁ : Links α), (∀ depth a, l.nodes.length + r.nodes.length < depth →
        skewHeapRemove comp depth a b L =
          some (a, if L.left p = some b then L₁.setLeft p v.root else L₁.setRight p v.root)) ∧
      v.Shape L₁ ∧ v.nodes.Perm (l.nodes ++ r.nodes) ∧ Within L L₁ (l.nodes ++ r.nodes) ∧
      (∀ c ∈ v.root, L₁.parent c = some p) ∧
      ∀ key : α → β, Compares comp key (l.nodes ++ r.nodes) → l.Ordered key → r.Ordered key →
        v.Ordered key := by
  obtain ⟨-, hnodup'⟩ := List.nodup_cons.1 hnodup
  obtain ⟨v, L', hrun, hmakes, -, hord⟩ := merge_spec β comp hs.2.2.2.2.1 hs.2.2.2.2.2 hnodup'
  obtain ⟨hshape, hwithin, hparent⟩ := hmakes.adopt hnodup' (some p)
  refine ⟨v, Ucore.adopt v.root (some p) L', fun depth a hdepth => ?_, hshape, hmakes.perm, hwithin,
    hparent, hord⟩
  have hmerge : skewHeapMerge comp depth (L.left b) (L.right b) L = some (v.root, L') := by
    rw [hs.1, hs.2.1]
    exact hrun depth hdepth
  rw [skewHeapRemove_eq hp hmerge, hwithin.left p hpnot]

omit [DecidableEq α] in
/-- The left subtree of the root is edited. -/
theorem Edits.left (h : Edits L L' l u b) (hs : (BinTree.node a l r).Shape L)
    (hnodup : (BinTree.node a l r).nodes.Nodup) :
    Edits L L' (.node a l r) (.node a u r) b := by
  obtain ⟨hnot, hnodup'⟩ := List.nodup_cons.1 hnodup
  obtain ⟨-, hr, hdisj⟩ := List.nodup_append.1 hnodup'
  have hal : a ∉ l.nodes := fun ha => hnot (List.mem_append_left _ ha)
  have hout : ∀ x ∈ r.nodes, x ∉ l.nodes := fun x hx hl => hdisj x hl x hx rfl
  refine ⟨⟨?_, ?_, fun c hc => ?_, fun c hc => ?_, h.shape, h.within.shape hs.2.2.2.2.2 hr hout⟩, rfl,
    ?_, h.within.subset fun x hx => List.mem_cons_of_mem a (List.mem_append_left _ hx), ?_⟩
  · rw [h.within.left a hal, h.root]
    exact hs.1
  · rw [h.within.right a hal]
    exact hs.2.1
  · rw [h.root] at hc
    rw [h.parent c hc]
    exact hs.2.2.1 c hc
  · rw [h.within.parent c (hout c (root_mem hc))]
    exact hs.2.2.2.1 c hc
  · exact (List.Perm.swap a b _).trans ((h.perm.append_right r.nodes).cons a)
  · rintro c ⟨rfl⟩
    exact h.within.parent a hal

omit [DecidableEq α] in
/-- The right subtree of the root is edited. -/
theorem Edits.right (h : Edits L L' r u b) (hs : (BinTree.node a l r).Shape L)
    (hnodup : (BinTree.node a l r).nodes.Nodup) :
    Edits L L' (.node a l r) (.node a l u) b := by
  obtain ⟨hnot, hnodup'⟩ := List.nodup_cons.1 hnodup
  obtain ⟨hl, -, hdisj⟩ := List.nodup_append.1 hnodup'
  have har : a ∉ r.nodes := fun ha => hnot (List.mem_append_right _ ha)
  have hout : ∀ x ∈ l.nodes, x ∉ r.nodes := fun x hx hr => hdisj x hx x hr rfl
  refine ⟨⟨?_, ?_, fun c hc => ?_, fun c hc => ?_, h.within.shape hs.2.2.2.2.1 hl hout, h.shape⟩, rfl,
    ?_, h.within.subset fun x hx => List.mem_cons_of_mem a (List.mem_append_right _ hx), ?_⟩
  · rw [h.within.left a har]
    exact hs.1
  · rw [h.within.right a har, h.root]
    exact hs.2.1
  · rw [h.within.parent c (hout c (root_mem hc))]
    exact hs.2.2.1 c hc
  · rw [h.root] at hc
    rw [h.parent c hc]
    exact hs.2.2.2.1 c hc
  · have hmid : (b :: (l.nodes ++ u.nodes)).Perm (l.nodes ++ b :: u.nodes) :=
      List.perm_middle.symm
    exact (List.Perm.swap a b _).trans ((hmid.trans (h.perm.append_left l.nodes)).cons a)
  · rintro c ⟨rfl⟩
    exact h.within.parent a har

/-- `v` in the place of the left child `b`. -/
theorem edits_setLeft {l' r' : BinTree α} {L₁ : Links α}
    (hs : (BinTree.node a (.node b l' r') r).Shape L)
    (hnodup : (BinTree.node a (.node b l' r') r).nodes.Nodup) (hv : v.Shape L₁)
    (hperm : v.nodes.Perm (l'.nodes ++ r'.nodes)) (hwithin : Within L L₁ (l'.nodes ++ r'.nodes))
    (hparent : ∀ c ∈ v.root, L₁.parent c = some a) :
    Edits L (L₁.setLeft a v.root) (.node a (.node b l' r') r) (.node a v r) b := by
  obtain ⟨hnot, hnodup'⟩ := List.nodup_cons.1 hnodup
  obtain ⟨hb, hr, hdisj⟩ := List.nodup_append.1 hnodup'
  obtain ⟨-, hmid⟩ := List.nodup_cons.1 hb
  have hsub : ∀ x ∈ l'.nodes ++ r'.nodes, x ∈ (BinTree.node b l' r').nodes := fun x hx =>
    List.mem_cons_of_mem b hx
  have ha : a ∉ l'.nodes ++ r'.nodes := fun hx => hnot (List.mem_append_left _ (hsub a hx))
  have hout : ∀ x ∈ r.nodes, x ∉ l'.nodes ++ r'.nodes := fun x hx hl => hdisj x (hsub x hl) x hx rfl
  have hleft : ∀ x, x ≠ a → (L₁.setLeft a v.root).left x = L₁.left x := fun x hx => update_of_ne hx _ _
  have hav : a ∉ v.nodes := fun hx => ha (hperm.mem_iff.1 hx)
  have har : a ∉ r.nodes := fun hx => hnot (List.mem_append_right _ hx)
  refine ⟨⟨update_self _ _ _, ?_, hparent, fun c hc => ?_, ?_, ?_⟩, rfl, ?_,
    ⟨fun x hx => ?_, fun x hx => ?_, fun x hx => ?_⟩, ?_⟩
  · exact (hwithin.right a ha).trans hs.2.1
  · exact (hwithin.parent c (hout c (root_mem hc))).trans (hs.2.2.2.1 c hc)
  · exact hv.congr (hperm.nodup_iff.2 hmid) (fun x hx => hleft x fun heq => hav (heq ▸ hx))
      (fun _ _ => rfl) fun _ _ _ => rfl
  · refine (hwithin.shape hs.2.2.2.2.2 hr hout).congr hr (fun x hx => hleft x fun heq => har (heq ▸ hx))
      (fun _ _ => rfl) fun _ _ _ => rfl
  · exact (List.Perm.swap a b _).trans ((((hperm.append_right r.nodes).cons b)).cons a)
  · have hx' := fun h => hx (List.mem_cons_of_mem a (List.mem_append_left _ (hsub x h)))
    rw [hleft x fun heq => hx (heq ▸ List.mem_cons_self), hwithin.left x hx']
  · exact hwithin.right x fun h => hx (List.mem_cons_of_mem a (List.mem_append_left _ (hsub x h)))
  · exact hwithin.parent x fun h => hx (List.mem_cons_of_mem a (List.mem_append_left _ (hsub x h)))
  · rintro c ⟨rfl⟩
    exact hwithin.parent a ha

/-- `v` in the place of the right child `b`. -/
theorem edits_setRight {l' r' : BinTree α} {L₁ : Links α}
    (hs : (BinTree.node a l (.node b l' r')).Shape L)
    (hnodup : (BinTree.node a l (.node b l' r')).nodes.Nodup) (hv : v.Shape L₁)
    (hperm : v.nodes.Perm (l'.nodes ++ r'.nodes)) (hwithin : Within L L₁ (l'.nodes ++ r'.nodes))
    (hparent : ∀ c ∈ v.root, L₁.parent c = some a) :
    Edits L (L₁.setRight a v.root) (.node a l (.node b l' r')) (.node a l v) b := by
  obtain ⟨hnot, hnodup'⟩ := List.nodup_cons.1 hnodup
  obtain ⟨hl, hb, hdisj⟩ := List.nodup_append.1 hnodup'
  obtain ⟨-, hmid⟩ := List.nodup_cons.1 hb
  have hsub : ∀ x ∈ l'.nodes ++ r'.nodes, x ∈ (BinTree.node b l' r').nodes := fun x hx =>
    List.mem_cons_of_mem b hx
  have ha : a ∉ l'.nodes ++ r'.nodes := fun hx => hnot (List.mem_append_right _ (hsub a hx))
  have hout : ∀ x ∈ l.nodes, x ∉ l'.nodes ++ r'.nodes := fun x hx hr => hdisj x hx x (hsub x hr) rfl
  have hright : ∀ x, x ≠ a → (L₁.setRight a v.root).right x = L₁.right x := fun x hx =>
    update_of_ne hx _ _
  have hav : a ∉ v.nodes := fun hx => ha (hperm.mem_iff.1 hx)
  have hal : a ∉ l.nodes := fun hx => hnot (List.mem_append_left _ hx)
  refine ⟨⟨?_, update_self _ _ _, fun c hc => ?_, hparent, ?_, ?_⟩, rfl, ?_,
    ⟨fun x hx => ?_, fun x hx => ?_, fun x hx => ?_⟩, ?_⟩
  · exact (hwithin.left a ha).trans hs.1
  · exact (hwithin.parent c (hout c (root_mem hc))).trans (hs.2.2.1 c hc)
  · refine (hwithin.shape hs.2.2.2.2.1 hl hout).congr hl (fun _ _ => rfl)
      (fun x hx => hright x fun heq => hal (heq ▸ hx)) fun _ _ _ => rfl
  · exact hv.congr (hperm.nodup_iff.2 hmid) (fun _ _ => rfl)
      (fun x hx => hright x fun heq => hav (heq ▸ hx)) fun _ _ _ => rfl
  · have hmove : (b :: (l.nodes ++ v.nodes)).Perm (l.nodes ++ b :: v.nodes) :=
      List.perm_middle.symm
    exact (List.Perm.swap a b _).trans ((hmove.trans ((hperm.cons b).append_left l.nodes)).cons a)
  · exact hwithin.left x fun h => hx (List.mem_cons_of_mem a (List.mem_append_right _ (hsub x h)))
  · have hx' := fun h => hx (List.mem_cons_of_mem a (List.mem_append_right _ (hsub x h)))
    rw [hright x fun heq => hx (heq ▸ List.mem_cons_self), hwithin.right x hx']
  · exact hwithin.parent x fun h => hx (List.mem_cons_of_mem a (List.mem_append_right _ (hsub x h)))
  · rintro c ⟨rfl⟩
    exact hwithin.parent a ha

omit [DecidableEq α] in
theorem Edits.mem (h : Edits L L' s u b) {c : α} (hc : c ∈ u.nodes) : c ∈ s.nodes :=
  h.perm.mem_iff.1 (List.mem_cons_of_mem b hc)

variable (β comp) in
/-- **Removing a node below the root** leaves the root where it is. -/
theorem remove_inner_spec (hs : s.Shape L) (hnodup : s.nodes.Nodup) (hb : b ∈ s.nodes)
    (hroot : b ∉ s.root) :
    ∃ (u : BinTree α) (L' : Links α), (∀ depth a, s.nodes.length ≤ depth →
        skewHeapRemove comp depth a b L = some (a, L')) ∧
      Edits L L' s u b ∧
      ∀ key : α → β, Compares comp key s.nodes → s.Ordered key → u.Ordered key := by
  -- down to the parent of the node
  induction s with
  | nil => cases hb
  | node a l r ihl ihr =>
    obtain ⟨hnot, hnodup'⟩ := List.nodup_cons.1 hnodup
    obtain ⟨hl, hr, hdisj⟩ := List.nodup_append.1 hnodup'
    have hba : b ≠ a := fun heq => hroot (heq ▸ rfl)
    have hlen : (BinTree.node a l r).nodes.length = l.nodes.length + r.nodes.length + 1 := by
      rw [show (BinTree.node a l r).nodes = a :: (l.nodes ++ r.nodes) from rfl, List.length_cons,
        List.length_append]
    have hsubl : ∀ c ∈ l.nodes, c ∈ (BinTree.node a l r).nodes := fun c hc =>
      List.mem_cons_of_mem a (List.mem_append_left _ hc)
    have hsubr : ∀ c ∈ r.nodes, c ∈ (BinTree.node a l r).nodes := fun c hc =>
      List.mem_cons_of_mem a (List.mem_append_right _ hc)
    rcases List.mem_append.1 ((List.mem_cons.1 hb).resolve_left hba) with hbl | hbr
    · by_cases hchild : b ∈ l.root
      · cases l with
        | nil => cases hchild
        | node c l' r' =>
          cases hchild
          obtain ⟨v, L₁, hrun, hv, hperm, hwithin, hparent, hord⟩ := remove_child_spec β comp
            hs.2.2.2.2.1 (hs.2.2.1 b rfl) hl fun ha => hnot (List.mem_append_left _
              (List.mem_cons_of_mem b ha))
          refine ⟨.node a v r, L₁.setLeft a v.root, fun depth x hdepth => ?_,
            edits_setLeft hs hnodup hv hperm hwithin hparent, fun key hcomp hord' => ?_⟩
          · have hlt : l'.nodes.length + r'.nodes.length < depth := by
              rw [hlen, show (BinTree.node b l' r').nodes = b :: (l'.nodes ++ r'.nodes) from rfl,
                List.length_cons, List.length_append] at hdepth
              omega
            rw [hrun depth x hlt, hs.1]
            exact congrArg (fun y => some (x, y)) (if_pos rfl)
          · have hsub : ∀ c ∈ l'.nodes ++ r'.nodes, c ∈ (BinTree.node b l' r').nodes := fun c hc =>
              List.mem_cons_of_mem b hc
            refine ordered_node hperm (hord key (hcomp.subset fun c hc => hsubl c (hsub c hc))
              hord'.2.1.2.1 hord'.2.1.2.2) hord'.2.2 fun c hc => hord'.1 c ?_
            rcases List.mem_append.1 hc with hc | hc
            · exact List.mem_append_left _ (hsub c hc)
            · exact List.mem_append_right _ hc
      · obtain ⟨u, L', hrun, hedits, hord⟩ := ihl hs.2.2.2.2.1 hl hbl hchild
        refine ⟨.node a u r, L', fun depth x hdepth => hrun depth x (by omega),
          hedits.left hs hnodup, fun key hcomp hord' => ⟨fun c hc => ?_,
            hord key (hcomp.subset hsubl) hord'.2.1, hord'.2.2⟩⟩
        refine hord'.1 c ?_
        rcases List.mem_append.1 hc with hc | hc
        · exact List.mem_append_left _ (hedits.mem hc)
        · exact List.mem_append_right _ hc
    · by_cases hchild : b ∈ r.root
      · cases r with
        | nil => cases hchild
        | node c l' r' =>
          cases hchild
          obtain ⟨v, L₁, hrun, hv, hperm, hwithin, hparent, hord⟩ := remove_child_spec β comp
            hs.2.2.2.2.2 (hs.2.2.2.1 b rfl) hr fun ha => hnot (List.mem_append_right _
              (List.mem_cons_of_mem b ha))
          refine ⟨.node a l v, L₁.setRight a v.root, fun depth x hdepth => ?_,
            edits_setRight hs hnodup hv hperm hwithin hparent, fun key hcomp hord' => ?_⟩
          · have hlt : l'.nodes.length + r'.nodes.length < depth := by
              rw [hlen, show (BinTree.node b l' r').nodes = b :: (l'.nodes ++ r'.nodes) from rfl,
                List.length_cons, List.length_append] at hdepth
              omega
            -- `b` is not the left child
            have hne : L.left a ≠ some b := by
              rw [hs.1]
              intro heq
              exact hdisj b (root_mem heq) b List.mem_cons_self rfl
            rw [hrun depth x hlt, if_neg hne]
          · have hsub : ∀ c ∈ l'.nodes ++ r'.nodes, c ∈ (BinTree.node b l' r').nodes := fun c hc =>
              List.mem_cons_of_mem b hc
            refine ⟨fun c hc => hord'.1 c ?_, hord'.2.1, hord key
              (hcomp.subset fun c hc => hsubr c (hsub c hc)) hord'.2.2.2.1 hord'.2.2.2.2⟩
            rcases List.mem_append.1 hc with hc | hc
            · exact List.mem_append_left _ hc
            · exact List.mem_append_right _ (hsub c (hperm.mem_iff.1 hc))
      · obtain ⟨u, L', hrun, hedits, hord⟩ := ihr hs.2.2.2.2.2 hr hbr hchild
        refine ⟨.node a l u, L', fun depth x hdepth => hrun depth x (by omega),
          hedits.right hs hnodup, fun key hcomp hord' => ⟨fun c hc => ?_, hord'.2.1,
            hord key (hcomp.subset hsubr) hord'.2.2⟩⟩
        refine hord'.1 c ?_
        rcases List.mem_append.1 hc with hc | hc
        · exact List.mem_append_left _ hc
        · exact List.mem_append_right _ (hedits.mem hc)

variable (β comp) in
/-- **`skew_heap_remove`** of any node. -/
theorem remove_spec (hs : s.Shape L) (hroot : ∀ c ∈ s.root, L.parent c = none)
    (hnodup : s.nodes.Nodup) (hb : b ∈ s.nodes) :
    ∃ (u : BinTree α) (L' : Links α), (∀ depth, s.nodes.length ≤ depth →
        skewHeapRemove comp depth s.root b L = some (u.root, L')) ∧
      u.Shape L' ∧ (b :: u.nodes).Perm s.nodes ∧ (∀ c ∈ u.root, L'.parent c = none) ∧
      ∀ key : α → β, Compares comp key s.nodes → s.Ordered key → u.Ordered key := by
  by_cases hbr : b ∈ s.root
  · cases s with
    | nil => cases hb
    | node c l r =>
      cases hbr
      obtain ⟨u, L', hrun, hshape, hperm, hparent, hord⟩ :=
        remove_root_spec β comp hs (hroot b rfl) hnodup (some b)
      refine ⟨u, L', fun depth hdepth => hrun depth ?_, hshape, hperm.cons b, hparent,
        fun key hcomp hord' => hord key (hcomp.subset fun c hc => List.mem_cons_of_mem b hc)
          hord'.2.1 hord'.2.2⟩
      rw [show (BinTree.node b l r).nodes = b :: (l.nodes ++ r.nodes) from rfl, List.length_cons,
        List.length_append] at hdepth
      omega
  · obtain ⟨u, L', hrun, hedits, hord⟩ := remove_inner_spec β comp hs hnodup hb hbr
    refine ⟨u, L', fun depth hdepth => ?_, hedits.shape, hedits.perm, fun c hc => ?_, hord⟩
    · rw [hrun depth _ hdepth, hedits.root]
    · rw [hedits.root] at hc
      rw [hedits.parent c hc]
      exact hroot c hc

/-! ### Comparisons -/

/-- `comp a b = -1`, the test of `skew_heap_merge`, is the strict part of a total preorder. -/
structure Preorders {α : Type*} (comp : α → α → ℤ) : Prop where
  asymm : ∀ a b, comp a b = -1 → comp b a ≠ -1
  trans : ∀ a b c, comp b a ≠ -1 → comp c b ≠ -1 → comp c a ≠ -1

/-- The preorder of the comparison. -/
abbrev Preorders.preorder {α : Type*} {comp : α → α → ℤ} (h : Preorders comp) : Preorder α where
  le a b := comp b a ≠ -1
  lt a b := comp a b = -1
  le_refl a ha := h.asymm a a ha ha
  le_trans := h.trans
  lt_iff_le_not_ge a b := ⟨fun hab => ⟨h.asymm a b hab, not_not.2 hab⟩, fun hab => not_not.1 hab.2⟩

/-- The classes of equal nodes are keys for it. -/
theorem Preorders.exists_key {α : Type u} {comp : α → α → ℤ} (h : Preorders comp) :
    ∃ (β : Type u) (_ : LinearOrder β) (key : α → β), ∀ a b, comp a b = -1 ↔ key a < key b := by
  classical
  let _ := h.preorder
  have : @Std.Total α (· ≤ ·) := ⟨fun a b => by
    by_cases hab : comp a b = -1
    · exact .inl (h.asymm a b hab)
    · exact .inr hab⟩
  refine ⟨Antisymmetrization α (· ≤ ·), inferInstance, toAntisymmetrization (· ≤ ·), fun a b => ?_⟩
  show a < b ↔ _
  exact toAntisymmetrization_lt_toAntisymmetrization_iff.symm

/-- No node is less than one above it. -/
def NoLess (comp : α → α → ℤ) : BinTree α → Prop
  | .nil => True
  | .node a l r => (∀ c ∈ l.nodes ++ r.nodes, comp c a ≠ -1) ∧ NoLess comp l ∧ NoLess comp r

omit [DecidableEq α] in
theorem noLess_iff {key : α → β} (hkey : ∀ a b, comp a b = -1 ↔ key a < key b) (t : BinTree α) :
    NoLess comp t ↔ t.Ordered key := by
  induction t with
  | nil => exact Iff.rfl
  | node a l r ihl ihr =>
    simp only [NoLess, BinTree.Ordered, ihl, ihr, ne_eq, hkey, not_lt]

/-! ### Heaps -/

/-- A heap: the pointer to its root, and the nodes. -/
structure Heap (α : Type*) where
  root : Option α
  links : Links α

/-- The nodes `held` are those of the heap, in the tree `t`. -/
structure IsHeap (comp : α → α → ℤ) (held : List α) (t : BinTree α) (h : Heap α) : Prop where
  root : h.root = t.root
  shape : t.Shape h.links
  parent : ∀ c ∈ t.root, h.links.parent c = none
  perm : t.nodes.Perm held
  nodup : held.Nodup
  noLess : NoLess comp t

/-- The operations on a heap. -/
inductive HeapOp (α : Type*)
  | insert (b : α)
  | remove (b : α)

namespace HeapOp

def run (comp : α → α → ℤ) (depth : ℕ) (h : Heap α) : HeapOp α → Option (Heap α)
  | insert b => (skewHeapInsert comp depth h.root b h.links).map fun x => ⟨x.1, x.2⟩
  | remove b => (skewHeapRemove comp depth h.root b h.links).map fun x => ⟨x.1, x.2⟩

/-- The nodes in the heap after an operation. -/
def held (nodes : List α) : HeapOp α → List α
  | insert b => b :: nodes
  | remove b => nodes.erase b

/-- A node that is inserted is not in the heap, one that is removed is. -/
def Enabled (nodes : List α) : HeapOp α → Prop
  | insert b => b ∉ nodes
  | remove b => b ∈ nodes

/-- The operations of the list are enabled one after the other. -/
def Allowed : List α → List (HeapOp α) → Prop
  | _, [] => True
  | nodes, op :: ops => op.Enabled nodes ∧ Allowed (op.held nodes) ops

end HeapOp

section Runs

variable {nodes : List α} {h : Heap α} {op : HeapOp α}

/-- **One operation.** -/
theorem IsHeap.step (hcomp : Preorders comp) (hh : IsHeap comp nodes t h) (hop : op.Enabled nodes) :
    ∃ h' t', (∀ depth, nodes.length + 1 < depth → op.run comp depth h = some h') ∧
      IsHeap comp (op.held nodes) t' h' := by
  obtain ⟨β, hβ, key, hkey⟩ := hcomp.exists_key
  have hcompares : ∀ l, Compares comp key l := fun l a _ b _ => hkey a b
  have hord := (noLess_iff hkey t).1 hh.noLess
  have hnodup := hh.perm.nodup_iff.2 hh.nodup
  have hlen := hh.perm.length_eq
  cases op with
  | insert b =>
    have hb : b ∉ t.nodes := fun hmem => hop (hh.perm.mem_iff.1 hmem)
    obtain ⟨u, L, hrun, hshape, hperm, hparent, hordu⟩ :=
      insert_spec β comp hh.shape hh.parent hnodup hb
    refine ⟨⟨u.root, L⟩, u, fun depth hdepth => ?_, rfl, hshape, hparent,
      hperm.trans (hh.perm.cons b), List.nodup_cons.2 ⟨hop, hh.nodup⟩,
      (noLess_iff hkey u).2 (hordu key (hcompares _) hord)⟩
    rw [HeapOp.run, hh.root, hrun depth (by omega)]
    rfl
  | remove b =>
    have hb : b ∈ t.nodes := hh.perm.mem_iff.2 hop
    obtain ⟨u, L, hrun, hshape, hperm, hparent, hordu⟩ :=
      remove_spec β comp hh.shape hh.parent hnodup hb
    refine ⟨⟨u.root, L⟩, u, fun depth hdepth => ?_, rfl, hshape, hparent, ?_, hh.nodup.erase b,
      (noLess_iff hkey u).2 (hordu key (hcompares _) hord)⟩
    · rw [HeapOp.run, hh.root, hrun depth (by omega)]
      rfl
    · exact (List.cons_perm_iff_perm_erase.1 (hperm.trans hh.perm)).2

omit [DecidableEq α] in
/-- What the pointers of a heap say about a child. -/
theorem child_of_shape {L : Links α} (hs : t.Shape L) (hno : NoLess comp t) {c : α}
    (hp : p ∈ t.nodes) (hc : L.left p = some c ∨ L.right p = some c) :
    c ∈ t.nodes ∧ L.parent c = some p ∧ comp c p ≠ -1 := by
  induction t with
  | nil => cases hp
  | node a l r ihl ihr =>
    have hsub : ∀ x ∈ l.nodes ++ r.nodes, x ∈ (BinTree.node a l r).nodes := fun x hx =>
      List.mem_cons_of_mem a hx
    rcases List.mem_cons.1 hp with rfl | hp
    · rcases hc with hc | hc
      · have hroot : c ∈ l.root := hs.1.symm.trans hc
        have hmem := List.mem_append_left r.nodes (root_mem hroot)
        exact ⟨hsub c hmem, hs.2.2.1 c hroot, hno.1 c hmem⟩
      · have hroot : c ∈ r.root := hs.2.1.symm.trans hc
        have hmem := List.mem_append_right l.nodes (root_mem hroot)
        exact ⟨hsub c hmem, hs.2.2.2.1 c hroot, hno.1 c hmem⟩
    · rcases List.mem_append.1 hp with hp | hp
      · obtain ⟨hmem, hrest⟩ := ihl hs.2.2.2.2.1 hno.2.1 hp
        exact ⟨hsub c (List.mem_append_left _ hmem), hrest⟩
      · obtain ⟨hmem, hrest⟩ := ihr hs.2.2.2.2.2 hno.2.2 hp
        exact ⟨hsub c (List.mem_append_right _ hmem), hrest⟩

omit [DecidableEq α] in
/-- The root is a minimum. -/
theorem IsHeap.root_least (hcomp : Preorders comp) (hh : IsHeap comp nodes t h) :
    ∀ a ∈ h.root, ∀ x ∈ nodes, comp x a ≠ -1 := by
  intro a ha x hx
  rw [hh.root] at ha
  obtain ⟨β, hβ, key, hkey⟩ := hcomp.exists_key
  have hle := ((noLess_iff hkey t).1 hh.noLess).le ha (hh.perm.mem_iff.2 hx)
  rw [ne_eq, hkey, not_lt]
  exact hle

omit [DecidableEq α] in
theorem IsHeap.root_none (hh : IsHeap comp nodes t h) : h.root = none ↔ nodes = [] := by
  rw [hh.root]
  cases t with
  | nil => exact iff_of_true rfl (List.nil_perm.1 hh.perm)
  | node a l r =>
    refine iff_of_false nofun ?_
    rintro rfl
    exact nomatch List.perm_nil.1 hh.perm

/-- A run from any heap. -/
theorem IsHeap.run (hcomp : Preorders comp) (ops : List (HeapOp α)) :
    ∀ {nodes t h}, IsHeap comp nodes t h → HeapOp.Allowed nodes ops →
      ∃ h' t' N, (∀ depth, N ≤ depth → ops.foldlM (HeapOp.run comp depth) h = some h') ∧
        IsHeap comp (ops.foldl HeapOp.held nodes) t' h' := by
  induction ops with
  | nil =>
    intro nodes t h hh _
    exact ⟨h, t, 0, fun _ _ => rfl, hh⟩
  | cons op ops ih =>
    intro nodes t h hh hallowed
    obtain ⟨h₁, t₁, hstep, hh₁⟩ := hh.step hcomp hallowed.1
    obtain ⟨h', t', N, hrun, hh'⟩ := ih hh₁ hallowed.2
    refine ⟨h', t', max N (nodes.length + 2), fun depth hdepth => ?_, hh'⟩
    rw [List.foldlM_cons, hstep depth (by omega)]
    exact hrun depth (by omega)

/-- **Skew heaps.**  A run of insertions and removals comes back with the nodes that are in the heap by
then, each once, in a tree whose pointers are right and in which no node is less than its parent. -/
theorem skewHeap_runs (hcomp : Preorders comp) (L : Links α) (ops : List (HeapOp α))
    (hallowed : HeapOp.Allowed [] ops) :
    ∃ h t N, (∀ depth, N ≤ depth → ops.foldlM (HeapOp.run comp depth) ⟨none, L⟩ = some h) ∧
      IsHeap comp (ops.foldl HeapOp.held []) t h ∧
      (h.root = none ↔ ops.foldl HeapOp.held [] = []) ∧
      (∀ p ∈ ops.foldl HeapOp.held [], ∀ c, h.links.left p = some c ∨ h.links.right p = some c →
        c ∈ ops.foldl HeapOp.held [] ∧ h.links.parent c = some p ∧ comp c p ≠ -1) ∧
      ∀ a ∈ h.root, h.links.parent a = none ∧ ∀ x ∈ ops.foldl HeapOp.held [], comp x a ≠ -1 := by
  have hempty : IsHeap comp [] .nil ⟨none, L⟩ := ⟨rfl, trivial, nofun, .refl _, List.nodup_nil, trivial⟩
  obtain ⟨h, t, N, hrun, hh⟩ := hempty.run hcomp ops hallowed
  refine ⟨h, t, N, hrun, hh, hh.root_none, fun p hp c hc => ?_, fun a ha => ⟨?_, hh.root_least hcomp a ha⟩⟩
  · obtain ⟨hmem, hrest⟩ := child_of_shape hh.shape hh.noLess (hh.perm.mem_iff.2 hp) hc
    exact ⟨hh.perm.mem_iff.1 hmem, hrest⟩
  · exact hh.parent a (hh.root ▸ ha)

/-- Numbers, compared as `proc_stride_comp_f` compares strides. -/
def compareNat (a b : ℕ) : ℤ := if b < a then 1 else if a = b then 0 else -1

theorem compareNat_preorders : Preorders compareNat := by
  have hlt : ∀ a b, compareNat a b = -1 ↔ a < b := by
    intro a b
    rw [compareNat]
    rcases lt_trichotomy a b with hab | hab | hab
    · rw [if_neg hab.not_gt, if_neg hab.ne]
      exact iff_of_true rfl hab
    · rw [if_neg (by omega), if_pos hab]
      exact iff_of_false (by decide) (by omega)
    · rw [if_pos hab]
      exact iff_of_false (by decide) (by omega)
  refine ⟨fun a b => ?_, fun a b c => ?_⟩
  · rw [ne_eq, hlt, hlt]
    omega
  · rw [ne_eq, ne_eq, ne_eq, hlt, hlt, hlt]
    omega

theorem skewHeap_runs_example :
    ∃ h t N, (∀ depth, N ≤ depth → ([.insert 3, .insert 1, .insert 2, .remove 3] : List (HeapOp ℕ)).foldlM
        (HeapOp.run compareNat depth) ⟨none, ⟨fun _ => none, fun _ => none, fun _ => none⟩⟩ = some h) ∧
      IsHeap compareNat [2, 1] t h ∧ (h.root = none ↔ [2, 1] = []) ∧
      (∀ p ∈ [2, 1], ∀ c, h.links.left p = some c ∨ h.links.right p = some c →
        c ∈ [2, 1] ∧ h.links.parent c = some p ∧ compareNat c p ≠ -1) ∧
      ∀ a ∈ h.root, h.links.parent a = none ∧ ∀ x ∈ [2, 1], compareNat x a ≠ -1 :=
  skewHeap_runs compareNat_preorders ⟨fun _ => none, fun _ => none, fun _ => none⟩
    [.insert 3, .insert 1, .insert 2, .remove 3]
    ⟨by simp [HeapOp.Enabled], by simp [HeapOp.Enabled, HeapOp.held],
      by simp [HeapOp.Enabled, HeapOp.held], by simp [HeapOp.Enabled, HeapOp.held], trivial⟩

end Runs

end Ucore
