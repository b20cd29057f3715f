import Ucore.Stride.Model

/-!
# The run pool

`IsPool s t`: the pointers of the run pool are those of the tree `t`, in the order of the true strides,
and the fields that the run queue keeps beside it agree with it.  Enqueueing a process and taking the
least one keep that, as long as `proc_stride_comp_f` orders the processes by their true strides.  It does
where true strides differ by at most `BIG_STRIDE` (`procStrideCompF_eq`).
-/

namespace Ucore.Stride

open Function Fallible HeapTree HeapTree.BinTree

/-- `BIG_STRIDE` as a number. -/
def bigStride : ℕ := 0x7fffffff

/-- Two true strides that a 32-bit difference can order. -/
def Near (x y : ℕ) : Prop := x ≤ y + bigStride ∧ y ≤ x + bigStride

variable {s s' : State} {p q : ℕ} {t : BinTree ℕ}

theorem near_comm {x y : ℕ} (h : Near x y) : Near y x := ⟨h.2, h.1⟩

/-- The stored strides are the true ones without their high bits. -/
def Stored (s : State) : Prop := ∀ p, (s.proc p).lab6Stride = BitVec.ofNat 32 (s.proc p).trueStride

/-- The order of two true strides, as a comparison function gives it. -/
def order (x y : ℕ) : ℤ := if y < x then 1 else if x = y then 0 else -1

/-- **The comparison** is right for strides that are near. -/
theorem procStrideCompF_eq (hs : Stored s) (hnear : Near (s.proc p).trueStride (s.proc q).trueStride) :
    s.procStrideCompF p q = order (s.proc p).trueStride (s.proc q).trueStride := by
  rw [State.procStrideCompF, hs p, hs q]
  generalize (s.proc p).trueStride = x at *
  generalize (s.proc q).trueStride = y at *
  obtain ⟨h1, h2⟩ := hnear
  simp only [bigStride] at h1 h2
  have hdiff : (BitVec.ofNat 32 x - BitVec.ofNat 32 y).toInt = (x : ℤ) - y := by
    rw [BitVec.toInt_eq_toNat_cond, BitVec.toNat_sub, BitVec.toNat_ofNat, BitVec.toNat_ofNat]
    omega
  simp only [hdiff, order]
  rcases lt_trichotomy x y with hlt | heq | hlt
  · rw [if_neg (by omega), if_neg (by omega), if_neg (by omega), if_neg (by omega)]
  · rw [if_neg (by omega), if_pos (by omega), if_neg (by omega), if_pos heq]
  · rw [if_pos (by omega), if_pos hlt]

theorem order_eq_neg_one {x y : ℕ} : order x y = -1 ↔ x < y := by
  rw [order]
  rcases lt_trichotomy x y with hlt | heq | hlt
  · rw [if_neg (by omega), if_neg (by omega)]
    exact iff_of_true rfl hlt
  · rw [if_neg (by omega), if_pos heq]
    exact iff_of_false (by decide) (by omega)
  · rw [if_pos hlt]
    exact iff_of_false (by decide) (by omega)

/-- The true stride of a process. -/
abbrev State.key (s : State) (p : ℕ) : ℕ := (s.proc p).trueStride

/-- The processes of the list are near each other. -/
def AllNear (s : State) (l : List ℕ) : Prop := ∀ p ∈ l, ∀ q ∈ l, Near (s.key p) (s.key q)

theorem AllNear.subset {l l' : List ℕ} (h : AllNear s l) (hsub : ∀ p ∈ l', p ∈ l) : AllNear s l' :=
  fun a ha b hb => h a (hsub a ha) b (hsub b hb)

theorem compares (hs : Stored s) {l : List ℕ} (hnear : AllNear s l) :
    Compares s.procStrideCompF s.key l := by
  intro p hp q hq
  rw [procStrideCompF_eq hs (hnear p hp q hq)]
  exact order_eq_neg_one

/-- The run queue, with the tree `t` as its heap. -/
structure IsPool (s : State) (t : BinTree ℕ) : Prop where
  shape : t.Shape s.links
  root : s.lab6RunPool = t.root
  parent : ∀ c ∈ t.root, s.links.parent c = none
  ordered : t.Ordered s.key
  perm : t.nodes.Perm s.runList
  nodup : s.runList.Nodup
  rq : ∀ p, (s.proc p).rq = true ↔ p ∈ s.runList
  procNum : s.procNum = s.runList.length

theorem IsPool.nodup_nodes (h : IsPool s t) : t.nodes.Nodup := h.perm.nodup_iff.2 h.nodup

/-- The fields of a process that the run queue does not look at may change. -/
theorem IsPool.congr (h : IsPool s t) (hlinks : s'.links = s.links)
    (hpool : s'.lab6RunPool = s.lab6RunPool) (hlist : s'.runList = s.runList)
    (hnum : s'.procNum = s.procNum) (hrq : ∀ p, (s'.proc p).rq = (s.proc p).rq)
    (hkey : ∀ p ∈ s.runList, s'.key p = s.key p) : IsPool s' t := by
  refine ⟨hlinks ▸ h.shape, hpool.trans h.root, hlinks ▸ h.parent, h.ordered.congr fun p hp => ?_,
    hlist ▸ h.perm, hlist ▸ h.nodup, fun p => ?_, ?_⟩
  · exact hkey p (h.perm.mem_iff.1 hp)
  · rw [hrq, hlist]
    exact h.rq p
  · rw [hnum, hlist]
    exact h.procNum

/-! ### Enqueueing -/

theorem linkProc_key : (s.linkProc p).key q = s.key q := by
  rcases eq_or_ne q p with rfl | hq
  · simp [State.key, State.linkProc]
  · simp [State.key, State.linkProc, hq]

/-- What enqueueing `p` does beside the heap. -/
structure Enqueued (s s' : State) (p : ℕ) : Prop where
  runList : s'.runList = s.runList ++ [p]
  other : ∀ q, q ≠ p → s'.proc q = s.proc q
  proc : s'.proc p = { s.proc p with
    lab6Priority := if (s.proc p).lab6Priority = 0 then 1 else (s.proc p).lab6Priority
    timeSlice := s.maxTimeSlice
    rq := true }
  current : s'.current = s.current
  idleproc : s'.idleproc = s.idleproc

theorem strideEnqueue_ok (h : IsPool s t) (hs : Stored s) (hp : p ∉ s.runList)
    (hnear : AllNear s (p :: s.runList)) :
    ∃ s' t', (∀ depth, s.runList.length + 1 < depth → s.strideEnqueue depth p = .ok s') ∧
      Enqueued s s' p ∧ IsPool s' t' := by
  have hrq : (s.proc p).rq = false := by
    rw [← Bool.not_eq_true, h.rq]
    exact hp
  have hself : (s.linkProc p).proc p = { s.proc p with
      lab6Priority := if (s.proc p).lab6Priority = 0 then 1 else (s.proc p).lab6Priority
      timeSlice := s.maxTimeSlice
      rq := true } := update_self _ _ _
  have hother : ∀ q, q ≠ p → (s.linkProc p).proc q = s.proc q := fun q hq => update_of_ne hq _ _
  -- the comparison does not look at the fields that change
  have hcomp : (s.linkProc p).procStrideCompF = s.procStrideCompF := by
    have hfield : ∀ q, ((s.linkProc p).proc q).lab6Stride = (s.proc q).lab6Stride := by
      intro q
      rcases eq_or_ne q p with rfl | hq
      · rw [hself]
      · rw [hother q hq]
    funext a b
    rw [State.procStrideCompF, State.procStrideCompF, hfield a, hfield b]
  have hpt : p ∉ t.nodes := fun hmem => hp (h.perm.mem_iff.1 hmem)
  obtain ⟨u, L, hins, hshape, hperm, hparent, hord⟩ := insert_spec ℕ s.procStrideCompF
    h.shape h.parent h.nodup_nodes hpt
  have hsub : ∀ a ∈ p :: t.nodes, a ∈ p :: s.runList := fun a ha => (h.perm.cons p).mem_iff.1 ha
  have hordu := hord s.key ((compares hs hnear).subset hsub) h.ordered
  have hcomm : ([p] ++ s.runList).Perm (s.runList ++ [p]) := List.perm_append_comm
  refine ⟨{ s.linkProc p with lab6RunPool := u.root, links := L, procNum := s.procNum + 1 }, u,
    fun depth hdepth => ?_, ⟨rfl, hother, hself, rfl, rfl⟩,
    hshape, rfl, hparent, hordu.congr fun _ _ => linkProc_key, ?_, ?_, fun q => ?_, ?_⟩
  · have hlen : t.nodes.length + 1 < depth := by
      rw [h.perm.length_eq]
      exact hdepth
    have hins' : skewHeapInsert (s.linkProc p).procStrideCompF depth (s.linkProc p).lab6RunPool p
        (s.linkProc p).links = some (u.root, L) := by
      rw [hcomp, ← hins depth hlen, ← h.root]
      rfl
    rw [State.strideEnqueue, require_pos hrq]
    simp only [bind_ok, hins', State.setRunPool]
    rfl
  · exact (hperm.trans (h.perm.cons p)).trans hcomm
  · exact hcomm.nodup_iff.1 (List.nodup_cons.2 ⟨hp, h.nodup⟩)
  · show ((s.linkProc p).proc q).rq = true ↔ q ∈ s.runList ++ [p]
    rw [List.mem_append, List.mem_singleton]
    rcases eq_or_ne q p with rfl | hq
    · rw [hself]
      exact iff_of_true rfl (.inr rfl)
    · rw [hother q hq, h.rq q]
      exact ⟨.inl, fun hor => hor.resolve_right hq⟩
  · show s.procNum + 1 = (s.runList ++ [p]).length
    rw [List.length_append, h.procNum]
    rfl

theorem setRunPool_eq_ok {x : Option (Option ℕ × Links ℕ)} :
    s.setRunPool x = .ok s' ↔ ∃ pool links, x = some (pool, links) ∧
      { s with lab6RunPool := pool, links := links } = s' := by
  rcases x with _ | ⟨pool, links⟩
  · exact iff_of_false nofun fun ⟨_, _, h, _⟩ => nomatch h
  · constructor
    · intro h
      exact ⟨pool, links, rfl, Except.ok.inj h⟩
    · rintro ⟨_, _, ⟨rfl⟩, rfl⟩
      rfl

/-- A call that comes back does not need more depth. -/
theorem strideEnqueue_mono {depth depth' : ℕ} (h : s.strideEnqueue depth p = .ok s')
    (hle : depth ≤ depth') : s.strideEnqueue depth' p = .ok s' := by
  obtain ⟨_, hreq, h⟩ := bind_eq_ok.1 h
  obtain ⟨m, hins, h⟩ := bind_eq_ok.1 h
  obtain ⟨pool, links, hins, hm⟩ := setRunPool_eq_ok.1 hins
  exact bind_eq_ok.2 ⟨_, hreq, bind_eq_ok.2 ⟨m,
    setRunPool_eq_ok.2 ⟨pool, links, skewHeapInsert_mono hins hle, hm⟩, h⟩⟩

theorem strideDequeue_mono {depth depth' : ℕ} (h : s.strideDequeue depth p = .ok s')
    (hle : depth ≤ depth') : s.strideDequeue depth' p = .ok s' := by
  obtain ⟨_, hreq, h⟩ := bind_eq_ok.1 h
  obtain ⟨m, hrem, h⟩ := bind_eq_ok.1 h
  obtain ⟨pool, links, hrem, hm⟩ := setRunPool_eq_ok.1 hrem
  exact bind_eq_ok.2 ⟨_, hreq, bind_eq_ok.2 ⟨m,
    setRunPool_eq_ok.2 ⟨pool, links, skewHeapRemove_mono hrem hle, hm⟩, h⟩⟩

/-! ### Picking -/

/-- The step of a process. -/
def stepOf (P : Proc) : ℕ := (BIG_STRIDE / (if P.lab6Priority = 0 then 1 else P.lab6Priority)).toNat

theorem stepOf_le (P : Proc) : stepOf P ≤ bigStride := by
  rw [stepOf, BitVec.toNat_udiv]
  exact Nat.div_le_self _ _

/-- What picking and dequeueing `p` does beside the heap. -/
structure Picked (s s' : State) (p : ℕ) : Prop where
  mem : p ∈ s.runList
  least : ∀ q ∈ s.runList, s.key p ≤ s.key q
  runList : s'.runList = s.runList.erase p
  other : ∀ q, q ≠ p → s'.proc q = s.proc q
  proc : s'.proc p = { (s.proc p).advance with rq := false }
  current : s'.current = s.current
  idleproc : s'.idleproc = s.idleproc

theorem stridePickNext_none (h : IsPool s t) (hempty : s.runList = []) :
    s.stridePickNext = (none, s) := by
  have hnil : t.nodes = [] := List.perm_nil.1 (hempty ▸ h.perm)
  have hroot : s.lab6RunPool = none := by
    rw [h.root]
    cases t with
    | nil => rfl
    | node a l r => cases hnil
  rw [State.stridePickNext, hroot]

/-- The process that is picked is the root of the heap, and there it has the least true stride. -/
theorem pick_ok (h : IsPool s t) (hs : Stored s) (hnear : AllNear s s.runList) (hne : s.runList ≠ []) :
    ∃ p m s' t', s.stridePickNext = (some p, m) ∧
      (∀ depth, s.runList.length ≤ depth → m.strideDequeue depth p = .ok s') ∧
      Picked s s' p ∧ IsPool s' t' := by
  cases t with
  | nil => exact absurd (List.nil_perm.1 h.perm) hne
  | node p l r =>
    have hmem : p ∈ s.runList := h.perm.mem_iff.1 List.mem_cons_self
    have hpick : s.stridePickNext = (some p, s.setProc p (s.proc p).advance) := by
      rw [State.stridePickNext, h.root]
      rfl
    generalize hm : s.setProc p (s.proc p).advance = m at *
    have hself : m.proc p = (s.proc p).advance := by rw [← hm]; exact update_self _ _ _
    have hother : ∀ q, q ≠ p → m.proc q = s.proc q := fun q hq => by rw [← hm]; exact update_of_ne hq _ _
    have hlinks : m.links = s.links := by rw [← hm]; rfl
    have hlist : m.runList = s.runList := by rw [← hm]; rfl
    have hnum : m.procNum = s.procNum := by rw [← hm]; rfl
    have hcur : m.current = s.current ∧ m.idleproc = s.idleproc := by rw [← hm]; exact ⟨rfl, rfl⟩
    obtain ⟨hpnot, -⟩ := List.nodup_cons.1 h.nodup_nodes
    have hsub : ∀ q ∈ l.nodes ++ r.nodes, q ∈ s.runList ∧ q ≠ p := fun q hq =>
      ⟨h.perm.mem_iff.1 (List.mem_cons_of_mem p hq), fun heq => hpnot (heq ▸ hq)⟩
    obtain ⟨u, L, hrem, hshape, hperm, hparent, hord⟩ := remove_root_spec ℕ m.procStrideCompF
      h.shape (h.parent p rfl) h.nodup_nodes m.lab6RunPool
    -- the nodes that are left have their strides as before
    have hcomp : Compares m.procStrideCompF s.key (l.nodes ++ r.nodes) := by
      intro a ha b hb
      have heq : m.procStrideCompF a b = s.procStrideCompF a b := by
        rw [State.procStrideCompF, State.procStrideCompF, hother a (hsub a ha).2, hother b (hsub b hb).2]
      rw [heq]
      exact compares hs hnear a (hsub a ha).1 b (hsub b hb).1
    have hrq : (m.proc p).rq = true := by
      rw [hself]
      exact (h.rq p).2 hmem
    have herase : u.nodes.Perm (s.runList.erase p) :=
      hperm.trans (List.cons_perm_iff_perm_erase.1 h.perm).2
    have hlenpos := List.length_pos_of_mem hmem
    have hkey : ∀ q, q ≠ p → (({ m with lab6RunPool := u.root, links := L } : State).unlinkProc p).proc q =
        s.proc q := fun q hq => (update_of_ne hq _ _).trans (hother q hq)
    refine ⟨p, m, { ({ m with lab6RunPool := u.root, links := L } : State).unlinkProc p with
      procNum := m.procNum - 1 }, u, hpick, fun depth hdepth => ?_,
      ⟨hmem, fun q hq => h.ordered.le rfl (h.perm.mem_iff.2 hq), congrArg (List.erase · p) hlist, hkey, ?_,
        hcur.1, hcur.2⟩, hshape, rfl, hparent, ?_, ?_, ?_, fun q => ?_, ?_⟩
    · have hlen : l.nodes.length + r.nodes.length < depth := by
        have hlen := h.perm.length_eq
        rw [show (BinTree.node p l r).nodes = p :: (l.nodes ++ r.nodes) from rfl, List.length_cons,
          List.length_append] at hlen
        omega
      have hrem' := hrem depth hlen
      rw [← hlinks] at hrem'
      have hpos : 0 < (({ m with lab6RunPool := u.root, links := L } : State).unlinkProc p).procNum := by
        show 0 < m.procNum
        rw [hnum, h.procNum]
        exact hlenpos
      rw [State.strideDequeue, require_pos hrq]
      simp only [bind_ok, hrem', State.setRunPool, require_pos hpos]
      rfl
    · refine (update_self _ _ _).trans ?_
      show { m.proc p with rq := false } = _
      rw [hself]
    · refine (hord s.key hcomp h.ordered.2.1 h.ordered.2.2).congr fun q hq => ?_
      exact congrArg Proc.trueStride (hkey q (hsub q (hperm.mem_iff.1 hq)).2)
    · show u.nodes.Perm (m.runList.erase p)
      rw [hlist]
      exact herase
    · show (m.runList.erase p).Nodup
      rw [hlist]
      exact h.nodup.erase p
    · show (update m.proc p { m.proc p with rq := false } q).rq = true ↔ q ∈ m.runList.erase p
      rw [hlist, h.nodup.mem_erase_iff]
      rcases eq_or_ne q p with rfl | hq
      · rw [update_self]
        exact iff_of_false Bool.false_ne_true fun h => h.1 rfl
      · rw [update_of_ne hq, hother q hq, h.rq q]
        exact ⟨fun hmem => ⟨hq, hmem⟩, fun h => h.2⟩
    · show m.procNum - 1 = (m.runList.erase p).length
      rw [hnum, hlist, h.procNum, List.length_erase_of_mem hmem]

end Ucore.Stride
