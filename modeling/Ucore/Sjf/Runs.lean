import Mathlib.Data.Prod.Lex
import Ucore.Lib.Transition
import Ucore.SkewHeap.Runs
import Ucore.Sjf.Model

/-!
# Runs of the run queue

`IsPool s t`: the pointers of the run pool are those of the tree `t`, with the shortest job on top, and the
fields beside it agree with it.

`proc_sjf_comp` reads the expected runtimes as signed numbers.  It orders them as unsigned ones where they
lie on one side of `2 ^ 31`, and only there (`procSjfComp_right_iff`): otherwise the longer job comes out as
the shorter one, unless the difference overflows.  `Op.OneSide` says that a job which comes into the queue
lies on the side of those in it; in every run of such steps `sjf_pick_next` picks the shortest job
(`sjf_picks_shortest`).
-/

namespace Ucore.Sjf

open Function Fallible HeapTree HeapTree.BinTree Transition

variable {overflow : ℤ → ℤ} {s s' : State} {p q : ℕ} {t : BinTree ℕ}

/-! ### The comparison -/

/-- The expected runtime as an unsigned number, and the process number. -/
def State.key (s : State) (p : ℕ) : ℕ ×ₗ ℤ :=
  toLex ((s.proc p).lab6ExpectedRuntime.toNat, (s.proc p).pid)

/-- Two expected runtimes that are both negative as signed numbers, or neither. -/
def SameSide (x y : BitVec 32) : Prop := x.toNat < 2 ^ 31 ↔ y.toNat < 2 ^ 31

theorem key_lt : s.key p < s.key q ↔
    (s.proc p).lab6ExpectedRuntime.toNat < (s.proc q).lab6ExpectedRuntime.toNat ∨
      (s.proc p).lab6ExpectedRuntime.toNat = (s.proc q).lab6ExpectedRuntime.toNat ∧
        (s.proc p).pid < (s.proc q).pid :=
  Prod.Lex.toLex_lt_toLex

theorem toInt_of_lt {x : BitVec 32} (h : x.toNat < 2 ^ 31) : x.toInt = x.toNat := by
  rw [BitVec.toInt_eq_toNat_cond, if_pos (by omega)]

theorem toInt_of_ge {x : BitVec 32} (h : ¬ x.toNat < 2 ^ 31) : x.toInt = x.toNat - 2 ^ 32 := by
  rw [BitVec.toInt_eq_toNat_cond, if_neg (by omega)]
  rfl

/-- **The comparison** is right for jobs on the same side. -/
theorem procSjfComp_lt (h : SameSide (s.proc p).lab6ExpectedRuntime (s.proc q).lab6ExpectedRuntime) :
    s.procSjfComp overflow p q = -1 ↔ s.key p < s.key q := by
  rw [key_lt, State.procSjfComp]
  generalize (s.proc p).lab6ExpectedRuntime = x at *
  generalize (s.proc q).lab6ExpectedRuntime = y at *
  have hx := x.isLt
  have hy := y.isLt
  rw [SameSide] at h
  -- on one side the signed difference is the unsigned one, and it fits
  have hdiff : int32Sub overflow x.toInt y.toInt = (x.toNat : ℤ) - y.toNat := by
    by_cases hside : y.toNat < 2 ^ 31
    · have hside' := h.2 hside
      rw [int32Sub, toInt_of_lt hside, toInt_of_lt hside', if_pos (by omega)]
    · have hside' : ¬ x.toNat < 2 ^ 31 := fun hlt => hside (h.1 hlt)
      rw [int32Sub, toInt_of_ge hside, toInt_of_ge hside', if_pos (by omega)]
      omega
  simp only [hdiff]
  rcases lt_trichotomy x.toNat y.toNat with hlt | heq | hlt
  · rw [if_neg (by omega), if_pos (by omega)]
    exact iff_of_true rfl (.inl hlt)
  · rw [if_neg (by omega), if_neg (by omega)]
    rcases lt_trichotomy (s.proc p).pid (s.proc q).pid with hpid | hpid | hpid
    · rw [if_neg hpid.not_gt, if_pos hpid]
      exact iff_of_true rfl (.inr ⟨heq, hpid⟩)
    · rw [if_neg (by omega), if_neg (by omega)]
      exact iff_of_false (by decide) (by omega)
    · rw [if_pos hpid]
      exact iff_of_false (by decide) (by omega)
  · rw [if_pos (by omega)]
    exact iff_of_false (by decide) (by omega)

/-- A job below `2 ^ 31` before one from there on: the difference is positive, or it overflows. -/
theorem procSjfComp_ne (hp : (s.proc p).lab6ExpectedRuntime.toNat < 2 ^ 31)
    (hq : ¬ (s.proc q).lab6ExpectedRuntime.toNat < 2 ^ 31) :
    s.key p < s.key q ∧ s.procSjfComp (fun _ => 1) p q = 1 := by
  refine ⟨key_lt.2 (.inl (by omega)), ?_⟩
  have hlt := (s.proc q).lab6ExpectedRuntime.isLt
  have hpos : 0 < int32Sub (fun _ => 1) (s.proc p).lab6ExpectedRuntime.toInt
      (s.proc q).lab6ExpectedRuntime.toInt := by
    rw [int32Sub, toInt_of_lt hp, toInt_of_ge hq]
    split
    · omega
    · decide
  exact if_pos hpos

/-- **The comparison is right exactly there.**  On different sides the longer job comes out as the
shorter one, or the difference overflows. -/
theorem procSjfComp_right_iff :
    (∀ overflow, (s.procSjfComp overflow p q = -1 ↔ s.key p < s.key q) ∧
        (s.procSjfComp overflow q p = -1 ↔ s.key q < s.key p)) ↔
      SameSide (s.proc p).lab6ExpectedRuntime (s.proc q).lab6ExpectedRuntime := by
  constructor
  · intro h
    obtain ⟨hpq, hqp⟩ := h fun _ => 1
    constructor
    · intro hp
      by_contra hq
      obtain ⟨hlt, hone⟩ := procSjfComp_ne hp hq
      rw [hone] at hpq
      exact absurd (hpq.2 hlt) (by decide)
    · intro hq
      by_contra hp
      obtain ⟨hlt, hone⟩ := procSjfComp_ne hq hp
      rw [hone] at hqp
      exact absurd (hqp.2 hlt) (by decide)
  · intro h overflow
    exact ⟨procSjfComp_lt h, procSjfComp_lt h.symm⟩

/-! ### The pool -/

/-- The jobs of the list are on the same side. -/
def AllSameSide (s : State) (l : List ℕ) : Prop :=
  ∀ p ∈ l, ∀ q ∈ l, SameSide (s.proc p).lab6ExpectedRuntime (s.proc q).lab6ExpectedRuntime

theorem compares {l : List ℕ} (h : AllSameSide s l) :
    Compares (s.procSjfComp overflow) s.key l := fun p hp q hq => procSjfComp_lt (h p hp q hq)

/-- The run queue, with the tree `t` as its heap. -/
structure IsPool (s : State) (t : BinTree ℕ) : Prop where
  shape : t.Shape s.links
  root : s.lab6RunPool = t.root
  parent : ∀ c ∈ t.root, s.links.parent c = none
  ordered : t.Ordered s.key
  perm : t.nodes.Perm s.runList
  nodup : s.runList.Nodup
  rq : ∀ p, (s.proc p).rq = true ↔ p ∈ s.runList
  procNum : s.procNum = s.runList.length
  sameSide : AllSameSide s s.runList

theorem IsPool.nodup_nodes (h : IsPool s t) : t.nodes.Nodup := h.perm.nodup_iff.2 h.nodup

theorem setRunPool_eq_ok {x : Option (Option ℕ × Links ℕ)} :
    s.setRunPool x = .ok s' ↔ ∃ pool links, x = some (pool, links) ∧
      { s with lab6RunPool := pool, links := links } = s' := by
  rcases x with _ | ⟨pool, links⟩
  · exact iff_of_false nofun fun ⟨_, _, h, _⟩ => nomatch h
  · constructor
    · intro h
      exact ⟨pool, links, rfl, Except.ok.inj h⟩
    · rintro ⟨_, _, ⟨rfl⟩, rfl⟩
      rfl

theorem proc_linkProc_of_ne (hq : q ≠ p) : (s.linkProc p).proc q = s.proc q := update_of_ne hq _ _

theorem runtime_linkProc_self :
    ((s.linkProc p).proc p).lab6ExpectedRuntime = s.enqueuedRuntime p := by
  simp [State.linkProc]

theorem key_linkProc_of_ne (hq : q ≠ p) : (s.linkProc p).key q = s.key q := by
  rw [State.key, State.key, proc_linkProc_of_ne hq]

/-- **`sjf_enqueue`** of a job on the side of those in the queue. -/
theorem IsPool.enqueue (overflow : ℤ → ℤ) (h : IsPool s t) (hp : p ∉ s.runList)
    (hside : ∀ q ∈ s.runList, SameSide (s.enqueuedRuntime p) (s.proc q).lab6ExpectedRuntime) :
    ∃ s' t', (∀ depth, s.runList.length + 1 < depth → s.sjfEnqueue overflow depth p = .ok s') ∧
      s'.runList = s.runList ++ [p] ∧ IsPool s' t' := by
  have hrq : (s.proc p).rq = false := by
    rw [← Bool.not_eq_true, h.rq]
    exact hp
  have hpt : p ∉ t.nodes := fun hmem => hp (h.perm.mem_iff.1 hmem)
  have hne : ∀ q ∈ s.runList, q ≠ p := fun q hq heq => hp (heq ▸ hq)
  have hall : AllSameSide (s.linkProc p) (p :: s.runList) := by
    intro a ha b hb
    rcases List.mem_cons.1 ha with rfl | ha'
    · rcases List.mem_cons.1 hb with rfl | hb'
      · exact Iff.rfl
      · rw [runtime_linkProc_self, proc_linkProc_of_ne (hne b hb')]
        exact hside b hb'
    · rcases List.mem_cons.1 hb with rfl | hb'
      · rw [runtime_linkProc_self, proc_linkProc_of_ne (hne a ha')]
        exact (hside a ha').symm
      · rw [proc_linkProc_of_ne (hne a ha'), proc_linkProc_of_ne (hne b hb')]
        exact h.sameSide a ha' b hb'
  obtain ⟨u, L, hins, hshape, hperm, hparent, hord⟩ := insert_spec (ℕ ×ₗ ℤ)
    ((s.linkProc p).procSjfComp overflow) h.shape h.parent h.nodup_nodes hpt
  have hsub : ∀ a ∈ p :: t.nodes, a ∈ p :: s.runList := fun a ha => (h.perm.cons p).mem_iff.1 ha
  have hordt : t.Ordered (s.linkProc p).key := h.ordered.congr fun q hq =>
    key_linkProc_of_ne (hne q (h.perm.mem_iff.1 hq))
  have hordu := hord (s.linkProc p).key ((compares hall).subset hsub) hordt
  have hcomm : ([p] ++ s.runList).Perm (s.runList ++ [p]) := List.perm_append_comm
  refine ⟨{ s.linkProc p with lab6RunPool := u.root, links := L, procNum := s.procNum + 1 }, u,
    fun depth hdepth => ?_, rfl, hshape, rfl, hparent, hordu, ?_, ?_, fun q => ?_, ?_,
    fun a ha b hb => hall a (hcomm.mem_iff.2 ha) b (hcomm.mem_iff.2 hb)⟩
  · have hlen : t.nodes.length + 1 < depth := by
      rw [h.perm.length_eq]
      exact hdepth
    have hins' := hins depth hlen
    rw [← h.root] at hins'
    have hpool : (s.linkProc p).lab6RunPool = s.lab6RunPool := rfl
    have hlinks : (s.linkProc p).links = s.links := rfl
    rw [State.sjfEnqueue, require_pos hrq]
    simp only [bind_ok, hpool, hlinks, hins', State.setRunPool]
    rfl
  · exact (hperm.trans (h.perm.cons p)).trans hcomm
  · exact hcomm.nodup_iff.1 (List.nodup_cons.2 ⟨hp, h.nodup⟩)
  · show ((s.linkProc p).proc q).rq = true ↔ q ∈ s.runList ++ [p]
    rw [List.mem_append, List.mem_singleton]
    rcases eq_or_ne q p with rfl | hq
    · exact iff_of_true (by simp [State.linkProc]) (.inr rfl)
    · rw [proc_linkProc_of_ne hq, h.rq q]
      exact ⟨.inl, fun hor => hor.resolve_right hq⟩
  · show s.procNum + 1 = (s.runList ++ [p]).length
    rw [List.length_append, h.procNum]
    rfl

/-- **`sjf_dequeue`** of any job in the queue. -/
theorem IsPool.dequeue (overflow : ℤ → ℤ) (h : IsPool s t) (hp : p ∈ s.runList) :
    ∃ s' t', (∀ depth, s.runList.length ≤ depth → s.sjfDequeue overflow depth p = .ok s') ∧
      s'.runList = s.runList.erase p ∧ IsPool s' t' := by
  have hrq := (h.rq p).2 hp
  obtain ⟨u, L, hrem, hshape, hperm, hparent, hord⟩ := remove_spec (ℕ ×ₗ ℤ)
    (s.procSjfComp overflow) h.shape h.parent h.nodup_nodes (h.perm.mem_iff.2 hp)
  have hordu := hord s.key ((compares h.sameSide).subset fun a ha => h.perm.mem_iff.1 ha) h.ordered
  have hproc : ∀ q, (update s.proc p { s.proc p with rq := false } q).lab6ExpectedRuntime =
      (s.proc q).lab6ExpectedRuntime ∧
        (update s.proc p { s.proc p with rq := false } q).pid = (s.proc q).pid := by
    intro q
    rcases eq_or_ne q p with rfl | hq
    · rw [update_self]
      exact ⟨rfl, rfl⟩
    · rw [update_of_ne hq]
      exact ⟨rfl, rfl⟩
  have hpos := List.length_pos_of_mem hp
  refine ⟨{ ({ s with lab6RunPool := u.root, links := L } : State).unlinkProc p with
    procNum := s.procNum - 1 }, u, fun depth hdepth => ?_, rfl, hshape, rfl, hparent, ?_, ?_,
    h.nodup.erase p, fun q => ?_, ?_, fun a ha b hb => ?_⟩
  · have hlen : t.nodes.length ≤ depth := by
      rw [h.perm.length_eq]
      exact hdepth
    have hrem' := hrem depth hlen
    rw [← h.root] at hrem'
    have hnum : 0 < (({ s with lab6RunPool := u.root, links := L } : State).unlinkProc p).procNum := by
      show 0 < s.procNum
      rw [h.procNum]
      exact hpos
    rw [State.sjfDequeue, require_pos hrq]
    simp only [bind_ok, hrem', State.setRunPool, require_pos hnum]
    rfl
  · refine hordu.congr fun q _ => ?_
    show toLex (_, _) = toLex (_, _)
    rw [← (hproc q).1, ← (hproc q).2]
    rfl
  · exact (List.cons_perm_iff_perm_erase.1 (hperm.trans h.perm)).2
  · show (update s.proc p { s.proc p with rq := false } q).rq = true ↔ q ∈ s.runList.erase p
    rw [h.nodup.mem_erase_iff]
    rcases eq_or_ne q p with rfl | hq
    · rw [update_self]
      exact iff_of_false Bool.false_ne_true fun hc => hc.1 rfl
    · rw [update_of_ne hq, h.rq q]
      exact ⟨fun hmem => ⟨hq, hmem⟩, fun hc => hc.2⟩
  · show s.procNum - 1 = (s.runList.erase p).length
    rw [h.procNum, List.length_erase_of_mem hp]
  · show SameSide (update s.proc p { s.proc p with rq := false } a).lab6ExpectedRuntime
      (update s.proc p { s.proc p with rq := false } b).lab6ExpectedRuntime
    rw [(hproc a).1, (hproc b).1]
    exact h.sameSide a (List.mem_of_mem_erase ha) b (List.mem_of_mem_erase hb)

/-- A change of one process that the run queue does not see. -/
theorem IsPool.setProc (h : IsPool s t) {P : Proc} (hrq : P.rq = (s.proc p).rq)
    (hkey : p ∈ s.runList → P.lab6ExpectedRuntime = (s.proc p).lab6ExpectedRuntime ∧
      P.pid = (s.proc p).pid) : IsPool (s.setProc p P) t := by
  have hproc : ∀ q ∈ s.runList, ((s.setProc p P).proc q).lab6ExpectedRuntime =
      (s.proc q).lab6ExpectedRuntime ∧ ((s.setProc p P).proc q).pid = (s.proc q).pid := by
    intro q hq
    rcases eq_or_ne q p with rfl | hqp
    · rw [State.setProc_self]
      exact hkey hq
    · rw [State.setProc_of_ne _ _ hqp]
      exact ⟨rfl, rfl⟩
  refine ⟨h.shape, h.root, h.parent, h.ordered.congr fun q hq => ?_, h.perm, h.nodup, fun q => ?_,
    h.procNum, fun a ha b hb => ?_⟩
  · obtain ⟨hruntime, hpid⟩ := hproc q (h.perm.mem_iff.1 hq)
    rw [State.key, State.key, hruntime, hpid]
  · rcases eq_or_ne q p with rfl | hqp
    · rw [State.setProc_self, hrq]
      exact h.rq q
    · rw [State.setProc_of_ne _ _ hqp]
      exact h.rq q
  · rw [(hproc a ha).1, (hproc b hb).1]
    exact h.sameSide a ha b hb

/-! ### Runs -/

/-- What the scheduler does with the run queue.  `current`, which `setExpectedRuntime` is about, is not
in it. -/
inductive Op
  | enqueue (p : ℕ)
  | dequeue (p : ℕ)
  | setExpectedRuntime (p : ℕ) (runtime : BitVec 32)
  | tick (p : ℕ)
  deriving DecidableEq, Repr

namespace Op

def run (overflow : ℤ → ℤ) (depth : ℕ) (s : State) : Op → Except Panic State
  | enqueue p => s.sjfEnqueue overflow depth p
  | dequeue p => s.sjfDequeue overflow depth p
  | setExpectedRuntime p runtime => .ok (s.lab6SetExpectedRuntime p runtime)
  | tick p => .ok (s.sjfProcTick p)

/-- The queue after an operation. -/
def queue (l : List ℕ) : Op → List ℕ
  | enqueue p => l ++ [p]
  | dequeue p => l.erase p
  | _ => l

def Enabled (s : State) : Op → Prop
  | enqueue p => p ∉ s.runList
  | dequeue p => p ∈ s.runList
  | setExpectedRuntime p _ => p ∉ s.runList
  | tick _ => True

/-- A job that comes into the queue lies on the side of those in it. -/
def OneSide (s : State) : Op → Prop
  | enqueue p => ∀ q ∈ s.runList, SameSide (s.enqueuedRuntime p) (s.proc q).lab6ExpectedRuntime
  | _ => True

def Returns (overflow : ℤ → ℤ) (op : Op) (s s' : State) : Prop :=
  ∃ N, ∀ depth, N ≤ depth → op.run overflow depth s = .ok s'

theorem Returns.unique {op : Op} {s₁ s₂ : State} (h₁ : op.Returns overflow s s₁)
    (h₂ : op.Returns overflow s s₂) : s₁ = s₂ := by
  obtain ⟨N₁, h₁⟩ := h₁
  obtain ⟨N₂, h₂⟩ := h₂
  have heq := (h₁ (max N₁ N₂) (Nat.le_max_left _ _)).symm.trans (h₂ (max N₁ N₂) (Nat.le_max_right _ _))
  exact Except.ok.inj heq

/-- A call that comes back does not need more depth. -/
theorem Returns.of_ok {op : Op} {depth : ℕ} (h : op.run overflow depth s = .ok s') :
    op.Returns overflow s s' := by
  refine ⟨depth, fun depth' hle => ?_⟩
  cases op with
  | enqueue p =>
    obtain ⟨_, hreq, h⟩ := bind_eq_ok.1 h
    obtain ⟨m, hins, h⟩ := bind_eq_ok.1 h
    obtain ⟨pool, links, hins, hm⟩ := setRunPool_eq_ok.1 hins
    exact bind_eq_ok.2 ⟨_, hreq, bind_eq_ok.2 ⟨m,
      setRunPool_eq_ok.2 ⟨pool, links, skewHeapInsert_mono hins hle, hm⟩, h⟩⟩
  | dequeue p =>
    obtain ⟨_, hreq, h⟩ := bind_eq_ok.1 h
    obtain ⟨m, hrem, h⟩ := bind_eq_ok.1 h
    obtain ⟨pool, links, hrem, hm⟩ := setRunPool_eq_ok.1 hrem
    exact bind_eq_ok.2 ⟨_, hreq, bind_eq_ok.2 ⟨m,
      setRunPool_eq_ok.2 ⟨pool, links, skewHeapRemove_mono hrem hle, hm⟩, h⟩⟩
  | setExpectedRuntime p runtime => exact h
  | tick p => exact h

end Op

/-- A step, and one that keeps the jobs in the queue on one side. -/
def Step (overflow : ℤ → ℤ) (s : State) (op : Op) (s' : State) : Prop :=
  op.Enabled s ∧ op.Returns overflow s s'

def OneSideStep (overflow : ℤ → ℤ) (s : State) (op : Op) (s' : State) : Prop :=
  op.OneSide s ∧ Step overflow s op s'

/-- The shortest of the jobs in `queue` is picked, the one with the smaller number of two that are
equal. -/
structure PicksShortest (queue : List ℕ) (s : State) : Prop where
  procNum : s.procNum = queue.length
  none_iff : s.sjfPickNext = none ↔ queue = []
  least : ∀ p, s.sjfPickNext = some p → p ∈ queue ∧ ∀ q ∈ queue,
    (s.proc p).lab6ExpectedRuntime.toNat < (s.proc q).lab6ExpectedRuntime.toNat ∨
      (s.proc p).lab6ExpectedRuntime.toNat = (s.proc q).lab6ExpectedRuntime.toNat ∧
        (s.proc p).pid ≤ (s.proc q).pid

theorem IsPool.picksShortest (h : IsPool s t) : PicksShortest s.runList s := by
  refine ⟨h.procNum, ?_, fun p hp => ?_⟩
  · rw [State.sjfPickNext, h.root]
    cases t with
    | nil => exact iff_of_true rfl (List.nil_perm.1 h.perm)
    | node a l r =>
      refine iff_of_false nofun fun hnil => ?_
      have hlen := h.perm.length_eq
      rw [hnil] at hlen
      exact nomatch hlen
  · rw [State.sjfPickNext, h.root] at hp
    refine ⟨h.perm.mem_iff.1 (root_mem hp), fun q hq => ?_⟩
    have hle : s.key p ≤ s.key q := h.ordered.le hp (h.perm.mem_iff.2 hq)
    exact Prod.Lex.toLex_le_toLex.1 hle

/-- **One step** on one side. -/
theorem IsPool.step (overflow : ℤ → ℤ) (h : IsPool s t) {op : Op} (hop : op.Enabled s) (hside : op.OneSide s) :
    ∃ s' t', op.Returns overflow s s' ∧ s'.runList = op.queue s.runList ∧ IsPool s' t' := by
  cases op with
  | enqueue p =>
    obtain ⟨s', t', hrun, hlist, h'⟩ := h.enqueue overflow hop hside
    exact ⟨s', t', ⟨s.runList.length + 2, fun depth hdepth => hrun depth (by omega)⟩, hlist, h'⟩
  | dequeue p =>
    obtain ⟨s', t', hrun, hlist, h'⟩ := h.dequeue overflow hop
    exact ⟨s', t', ⟨s.runList.length, hrun⟩, hlist, h'⟩
  | setExpectedRuntime p runtime =>
    exact ⟨_, t, ⟨0, fun _ _ => rfl⟩, rfl, h.setProc rfl fun hmem => absurd hmem hop⟩
  | tick p => exact ⟨_, t, ⟨0, fun _ _ => rfl⟩, rfl, h.setProc rfl fun _ => ⟨rfl, rfl⟩⟩

theorem isPool_init (hrq : ∀ p, (s.proc p).rq = false) : IsPool s.sjfInit .nil := by
  refine ⟨trivial, rfl, nofun, trivial, .refl _, List.nodup_nil, fun p => ?_, rfl, nofun⟩
  show (s.proc p).rq = true ↔ p ∈ []
  rw [hrq p]
  exact iff_of_false Bool.false_ne_true List.not_mem_nil

/-- **Shortest job first**, in every run in which the jobs in the queue are on one side of `2 ^ 31`. -/
theorem sjf_picks_shortest {s₀ : State} (hrq : ∀ p, (s₀.proc p).rq = false) {ops : List Op}
    (hrun : Trace (OneSideStep overflow) s₀.sjfInit ops s) :
    s.runList = ops.foldl Op.queue [] ∧ PicksShortest (ops.foldl Op.queue []) s ∧
      ∀ op : Op, op.Enabled s → op.OneSide s → ∃ s', op.Returns overflow s s' := by
  have h := hrun.foldl (P := fun s => ∃ t, IsPool s t) (v := State.runList) (f := Op.queue)
    (fun a op b ⟨t, ha⟩ ⟨hside, hop, hret⟩ => by
      obtain ⟨b', t', hret', hlist, hb⟩ := ha.step overflow hop hside
      obtain rfl := hret.unique hret'
      exact ⟨⟨t', hb⟩, hlist⟩) ⟨.nil, isPool_init hrq⟩
  obtain ⟨⟨t, ht⟩, hlist⟩ := h
  have hnil : s₀.sjfInit.runList = [] := rfl
  rw [hnil] at hlist
  refine ⟨hlist, hlist ▸ ht.picksShortest, fun op hop hside => ?_⟩
  obtain ⟨s', -, hret, -⟩ := ht.step overflow hop hside
  exact ⟨s', hret⟩

/-- Processes 1 and 2, with these expected runtimes, before they are put into the queue. -/
def twoJobs (x y : BitVec 32) : State where
  proc := fun p => ⟨p, if p = 1 then x else y, 0, false⟩
  links := ⟨fun _ => none, fun _ => none, fun _ => none⟩
  lab6RunPool := none
  runList := []
  procNum := 0
  maxTimeSlice := MAX_TIME_SLICE

theorem sjf_picks_shortest_two :
    ∃ s, Trace (OneSideStep id) (twoJobs 7 4).sjfInit [.enqueue 1, .enqueue 2] s ∧
      s.sjfPickNext = some 2 ∧ PicksShortest [1, 2] s := by
  have hcheck : (do
      let s ← Op.run id 10 (twoJobs 7 4).sjfInit (.enqueue 1)
      require (s.runList = [1] ∧ s.enqueuedRuntime 2 = 4 ∧
        (s.proc 1).lab6ExpectedRuntime = 7) .endless
      Op.run id 10 s (.enqueue 2) : Except Panic State).toOption.any
        (fun s => s.sjfPickNext = some 2) = true := by decide
  obtain ⟨s₂, hrun, hs₂⟩ := exists_ok_of_any hcheck
  obtain ⟨s₁, h₁, hrun⟩ := bind_eq_ok.1 hrun
  obtain ⟨_, hone, h₂⟩ := bind_eq_ok.1 hrun
  obtain ⟨hlist, htwo, hseven⟩ := require_eq_ok.1 hone
  have hempty : Op.Enabled (twoJobs 7 4).sjfInit (.enqueue 1) := List.not_mem_nil
  have henabled : Op.Enabled s₁ (.enqueue 2) := by
    show 2 ∉ s₁.runList
    rw [hlist]
    decide
  have hside : Op.OneSide s₁ (.enqueue 2) := by
    intro q hq
    rw [hlist] at hq
    rw [List.mem_singleton.1 hq, htwo, hseven]
    exact iff_of_true (by decide) (by decide)
  have htrace : Trace (OneSideStep id) (twoJobs 7 4).sjfInit [.enqueue 1, .enqueue 2] s₂ :=
    (Trace.nil.snoc ⟨nofun, hempty, .of_ok h₁⟩).snoc ⟨hside, henabled, .of_ok h₂⟩
  exact ⟨s₂, htrace, of_decide_eq_true hs₂, (sjf_picks_shortest (fun _ => rfl) htrace).2.1⟩

/-- A job of more than `2 ^ 31` ticks goes before one of a single tick. -/
theorem sjf_picks_long :
    ∃ s, Trace (Step id) (twoJobs 0x80000001 1).sjfInit [.enqueue 1, .enqueue 2] s ∧
      s.sjfPickNext = some 1 ∧ ¬ PicksShortest [1, 2] s := by
  have hcheck : (do
      let s ← Op.run id 10 (twoJobs 0x80000001 1).sjfInit (.enqueue 1)
      require (s.runList = [1]) .endless
      Op.run id 10 s (.enqueue 2) : Except Panic State).toOption.any
        (fun s => s.sjfPickNext = some 1 ∧ (s.proc 1).lab6ExpectedRuntime = 0x80000001 ∧
          (s.proc 2).lab6ExpectedRuntime = 1) = true := by decide
  obtain ⟨s₂, hrun, hs₂⟩ := exists_ok_of_any hcheck
  obtain ⟨s₁, h₁, hrun⟩ := bind_eq_ok.1 hrun
  obtain ⟨_, hone, h₂⟩ := bind_eq_ok.1 hrun
  obtain ⟨hpick, hlong, hshort⟩ := of_decide_eq_true hs₂
  have hempty : Op.Enabled (twoJobs 0x80000001 1).sjfInit (.enqueue 1) := List.not_mem_nil
  have henabled : Op.Enabled s₁ (.enqueue 2) := by
    show 2 ∉ s₁.runList
    rw [require_eq_ok.1 hone]
    decide
  refine ⟨s₂, (Trace.nil.snoc ⟨hempty, .of_ok h₁⟩).snoc ⟨henabled, .of_ok h₂⟩, hpick, fun h => ?_⟩
  have hleast := (h.least 1 hpick).2 2 (by decide)
  rw [hlong, hshort] at hleast
  rcases hleast with hlt | ⟨heq, -⟩
  · exact absurd hlt (by decide)
  · exact absurd heq (by decide)

end Ucore.Sjf
