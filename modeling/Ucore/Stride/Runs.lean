import Ucore.Lib.Transition
import Ucore.Stride.Schedule

/-!
# Runs with forks and sleeps

The processes are created, sleep, are woken up, exit and are freed, in any order, and `schedule` is
called at any time.  A process keeps its stride while it sleeps, and a new one starts at stride 0, so a
process may come into the pool with a stride that is not near those in it.  `Op.Timely` says that it is
near them.  While the steps are timely, the strides in the pool are near each other
(`Inv`, `Inv.step`), and a step that is not timely brings together two that are not.
-/

namespace Ucore.Stride

open Fallible Relation HeapTree HeapTree.BinTree

variable {s s' : State} {p q : ℕ} {t : BinTree ℕ}

/-- What the processes and the timer do.  `sleep` and `exit` are the assignments to `current->state`;
`schedule` follows them. -/
inductive Op
  | fork (p : ℕ)
  | wakeup (p : ℕ)
  | sleep
  | exit
  | tick
  | yield
  | setPriority (priority : BitVec 32)
  | free (p : ℕ)
  | schedule
  deriving DecidableEq, Repr

def Op.run (depth : ℕ) (s : State) : Op → Except Panic State
  | .fork p => s.doFork depth p
  | .wakeup p => s.wakeupProc depth p
  | .sleep => .ok (s.setState .sleeping)
  | .exit => .ok (s.setState .zombie)
  | .tick => .ok (s.schedClassProcTick s.current)
  | .yield => .ok s.doYield
  | .setPriority priority => .ok (s.lab6SetPriority priority)
  | .free p => .ok (s.freeProc p)
  | .schedule => s.schedule depth

/-- A new process gets free memory, a zombie is not woken up, `idleproc` does not sleep or exit, and
the process that is freed is a zombie which does not run. -/
def Op.Enabled (s : State) : Op → Prop
  | .fork p => (s.proc p).allocated = false
  | .wakeup p => (s.proc p).allocated = true ∧ (s.proc p).state ≠ .zombie
  | .sleep => s.current ≠ s.idleproc
  | .exit => s.current ≠ s.idleproc
  | .free p => (s.proc p).state = .zombie ∧ p ≠ s.current
  | _ => True

def Op.Returns (op : Op) (s s' : State) : Prop := ∃ N, ∀ depth, N ≤ depth → op.run depth s = .ok s'

theorem Op.Returns.unique {op : Op} {s₁ s₂ : State} (h₁ : op.Returns s s₁) (h₂ : op.Returns s s₂) :
    s₁ = s₂ := by
  obtain ⟨N₁, h₁⟩ := h₁
  obtain ⟨N₂, h₂⟩ := h₂
  have heq := (h₁ (max N₁ N₂) (Nat.le_max_left _ _)).symm.trans (h₂ (max N₁ N₂) (Nat.le_max_right _ _))
  exact Except.ok.inj heq

theorem wakeupProc_mono {depth depth' : ℕ} (h : s.wakeupProc depth p = .ok s') (hle : depth ≤ depth') :
    s.wakeupProc depth' p = .ok s' := by
  obtain ⟨_, hreq, h⟩ := bind_eq_ok.1 h
  refine bind_eq_ok.2 ⟨_, hreq, ?_⟩
  by_cases hrun : (s.proc p).state ≠ .runnable
  · rw [if_pos hrun] at h ⊢
    by_cases hcur : p ≠ s.current
    · exact (if_pos hcur).trans (schedClassEnqueue_mono ((if_pos hcur).symm.trans h) hle)
    · exact (if_neg hcur).trans ((if_neg hcur).symm.trans h)
  · rw [if_neg hrun] at h ⊢
    exact h

/-- A call that comes back comes back in any depth above. -/
theorem Op.Returns.of_ok {op : Op} {depth : ℕ} (h : op.run depth s = .ok s') : op.Returns s s' := by
  refine ⟨depth, fun depth' hle => ?_⟩
  cases op with
  | fork p => exact wakeupProc_mono h hle
  | wakeup p => exact wakeupProc_mono h hle
  | schedule => exact schedule_mono h hle
  | sleep => exact h
  | exit => exact h
  | tick => exact h
  | yield => exact h
  | setPriority priority => exact h
  | free p => exact h

/-- `wakeup_proc(p)` puts `p` into the pool. -/
def State.joins (s : State) (p : ℕ) : Prop :=
  (s.proc p).state ≠ .runnable ∧ p ≠ s.current ∧ p ≠ s.idleproc

instance (s : State) (p : ℕ) : Decidable (s.joins p) := inferInstanceAs (Decidable (_ ∧ _))

/-- The state, and the processes that `wakeup_proc` has put into the pool since the last `schedule`. -/
structure Sys where
  state : State
  woken : List ℕ

def Op.woken (x : Sys) : Op → List ℕ
  | .fork p => p :: x.woken
  | .wakeup p => if x.state.joins p then p :: x.woken else x.woken
  | .schedule => []
  | _ => x.woken

/-- One step. -/
def Next (x : Sys) (op : Op) (y : Sys) : Prop :=
  op.Enabled x.state ∧ op.Returns x.state y.state ∧ y.woken = op.woken x

def Step (x y : Sys) : Prop := ∃ op, Next x op y

/-- A process that `wakeup_proc` puts into the pool has a stride near those there; the running process,
if `schedule` puts it back, has one near those that were woken up since it was picked. -/
def Op.Timely (x : Sys) : Op → Prop
  | .fork _ => ∀ q ∈ x.state.runList, Near 0 (x.state.key q)
  | .wakeup p => x.state.joins p → ∀ q ∈ x.state.runList, Near (x.state.key p) (x.state.key q)
  | .schedule => (x.state.proc x.state.current).state = .runnable → x.state.current ≠ x.state.idleproc →
      ∀ q ∈ x.woken, Near (x.state.key x.state.current) (x.state.key q)
  | _ => True

def TimelyStep (x y : Sys) : Prop := ∃ op, op.Timely x ∧ Next x op y

/-- The invariant of timely runs. -/
structure Inv (x : Sys) : Prop where
  ready : ∃ t, Ready x.state t
  near : AllNear x.state x.state.runList
  nearCurrent : x.state.current ≠ x.state.idleproc → ∀ q ∈ x.state.runList, q ∉ x.woken →
    Near (x.state.key x.state.current) (x.state.key q)
  woken : ∀ q ∈ x.woken, q ∈ x.state.runList
  pooled : ∀ q ∈ x.state.runList, (x.state.proc q).allocated = true ∧ (x.state.proc q).state = .runnable
  current : (x.state.proc x.state.current).allocated = true
  idleproc : (x.state.proc x.state.idleproc).allocated = true ∧
    (x.state.proc x.state.idleproc).state = .runnable

variable {x y : Sys}

/-! ### Waking up -/

theorem wakeupProc_joins {depth : ℕ} (hz : (s.proc p).state ≠ .zombie) (h : s.joins p) :
    s.wakeupProc depth p =
      (s.setProc p { s.proc p with state := .runnable }).strideEnqueue depth p := by
  rw [State.wakeupProc, require_pos hz, bind_ok, if_pos h.1]
  exact (if_pos h.2.1).trans (if_pos h.2.2)

/-- Without joining the pool, `p` only becomes runnable. -/
theorem wakeupProc_stays {depth : ℕ} (hz : (s.proc p).state ≠ .zombie) (h : ¬ s.joins p) :
    s.wakeupProc depth p = .ok s ∧ (s.proc p).state = .runnable ∨
      s.wakeupProc depth p = .ok (s.setProc p { s.proc p with state := .runnable }) ∧
        (s.proc p).state ≠ .runnable ∧ (p = s.current ∨ p = s.idleproc) := by
  rw [State.wakeupProc, require_pos hz, bind_ok]
  by_cases hrun : (s.proc p).state = .runnable
  · rw [if_neg (not_not.2 hrun)]
    exact .inl ⟨rfl, hrun⟩
  · rw [if_pos hrun]
    by_cases hcur : p = s.current
    · exact .inr ⟨if_neg (not_not.2 hcur), hrun, .inl hcur⟩
    · have hidle : p = s.idleproc := not_not.1 fun hidle => h ⟨hrun, hcur, hidle⟩
      exact .inr ⟨(if_pos hcur).trans (if_neg (not_not.2 hidle)), hrun, .inr hidle⟩

/-- What a call that enqueues does to the list and the strides, in a pool of any kind. -/
theorem strideEnqueue_fields {depth : ℕ} (h : s.strideEnqueue depth p = .ok s') :
    s'.runList = s.runList ++ [p] ∧ ∀ q, s'.key q = s.key q := by
  obtain ⟨_, -, h⟩ := bind_eq_ok.1 h
  obtain ⟨m, hins, h⟩ := bind_eq_ok.1 h
  obtain ⟨pool, links, -, rfl⟩ := setRunPool_eq_ok.1 hins
  cases h
  exact ⟨rfl, fun _ => linkProc_key⟩

/-- A runnable process that is not in the pool joins it. -/
theorem Inv.join (h : Inv x) {P : Proc} (hp : p ∉ x.state.runList) (hcur : p ≠ x.state.current)
    (hidle : p ≠ x.state.idleproc) (hrq : P.rq = false) (halloc : P.allocated = true)
    (hstate : P.state = .runnable) (hstored : P.lab6Stride = BitVec.ofNat 32 P.trueStride)
    (hnear : ∀ q ∈ x.state.runList, Near P.trueStride (x.state.key q)) :
    ∃ s' N, (∀ depth, N ≤ depth → (x.state.setProc p P).strideEnqueue depth p = .ok s') ∧
      Inv ⟨s', p :: x.woken⟩ := by
  obtain ⟨t, hready⟩ := h.ready
  have hfalse : (x.state.proc p).rq = false := by
    rw [← Bool.not_eq_true, hready.pool.rq]
    exact hp
  have hm := hready.setProc P (hrq.trans hfalse.symm) hstored fun hmem => absurd hmem hp
  have hkey : ∀ q, q ≠ p → (x.state.setProc p P).key q = x.state.key q := fun q hq =>
    congrArg Proc.trueStride (x.state.setProc_of_ne P hq)
  have hself : (x.state.setProc p P).key p = P.trueStride :=
    congrArg Proc.trueStride (x.state.setProc_self p P)
  have hne : ∀ q ∈ x.state.runList, q ≠ p := fun q hq heq => hp (heq ▸ hq)
  have hall : AllNear (x.state.setProc p P) (p :: x.state.runList) := by
    intro a ha b hb
    rcases List.mem_cons.1 ha with rfl | ha'
    · rcases List.mem_cons.1 hb with rfl | hb'
      · exact ⟨Nat.le_add_right _ _, Nat.le_add_right _ _⟩
      · rw [hself, hkey b (hne b hb')]
        exact hnear b hb'
    · rcases List.mem_cons.1 hb with rfl | hb'
      · rw [hself, hkey a (hne a ha')]
        exact near_comm (hnear a ha')
      · rw [hkey a (hne a ha'), hkey b (hne b hb')]
        exact h.near a ha' b hb'
  obtain ⟨s', t', henq, hs', hpool⟩ := strideEnqueue_ok hm.pool hm.stored hp hall
  have hother : ∀ q, q ≠ p → s'.proc q = x.state.proc q := fun q hq =>
    (hs'.other q hq).trans (x.state.setProc_of_ne P hq)
  have hkey' : ∀ q, s'.key q = (x.state.setProc p P).key q := by
    intro q
    rcases eq_or_ne q p with rfl | hq
    · rw [State.key, hs'.proc]
    · rw [State.key, hs'.other q hq]
  have hstored' : Stored s' := by
    intro q
    rcases eq_or_ne q p with rfl | hq
    · rw [hs'.proc]
      exact hm.stored q
    · rw [hother q hq]
      exact hready.stored q
  have hlist : ∀ q, q ∈ s'.runList ↔ q ∈ x.state.runList ∨ q = p := by
    intro q
    rw [hs'.runList, List.mem_append, List.mem_singleton]
    rfl
  have hcurrent : s'.current = x.state.current := hs'.current
  have hidleproc : s'.idleproc = x.state.idleproc := hs'.idleproc
  refine ⟨s', x.state.runList.length + 2, henq,
    ⟨⟨t', hpool, hstored', fun hmem => ?_, fun hmem => ?_⟩, fun a ha b hb => ?_, fun hne' q hq hw => ?_,
      fun q hq => ?_, fun q hq => ?_, ?_, ?_⟩⟩
  · rw [hlist, hcurrent] at hmem
    exact hmem.elim hready.current (Ne.symm hcur)
  · rw [hlist, hidleproc] at hmem
    exact hmem.elim hready.idleproc (Ne.symm hidle)
  · rw [hkey' a, hkey' b]
    rw [hlist, or_comm, ← List.mem_cons] at ha hb
    exact hall a ha b hb
  · rw [List.mem_cons, not_or] at hw
    rw [hcurrent, hidleproc] at hne'
    show Near (s'.key s'.current) (s'.key q)
    rw [hkey', hkey' q, hcurrent, hkey _ (Ne.symm hcur), hkey q hw.1]
    exact h.nearCurrent hne' q (((hlist q).1 hq).resolve_right hw.1) hw.2
  · rw [List.mem_cons] at hq
    exact (hlist q).2 (hq.symm.imp_left (h.woken q))
  · rcases eq_or_ne q p with rfl | hqp
    · show (s'.proc q).allocated = true ∧ (s'.proc q).state = .runnable
      rw [hs'.proc, x.state.setProc_self]
      exact ⟨halloc, hstate⟩
    · show (s'.proc q).allocated = true ∧ (s'.proc q).state = .runnable
      rw [hother q hqp]
      exact h.pooled q (((hlist q).1 hq).resolve_right hqp)
  · show (s'.proc s'.current).allocated = true
    rw [hcurrent, hother _ (Ne.symm hcur)]
    exact h.current
  · show (s'.proc s'.idleproc).allocated = true ∧ (s'.proc s'.idleproc).state = .runnable
    rw [hidleproc, hother _ (Ne.symm hidle)]
    exact h.idleproc

/-- A step that changes one process, but not the fields that the run queue looks at. -/
theorem Inv.setProc (h : Inv x) {P : Proc} (hrq : P.rq = (x.state.proc p).rq)
    (hstride : P.lab6Stride = (x.state.proc p).lab6Stride)
    (htrue : P.trueStride = (x.state.proc p).trueStride)
    (hpooled : p ∈ x.state.runList ∨ p = x.state.idleproc → P.allocated = true ∧ P.state = .runnable)
    (hcur : p = x.state.current → P.allocated = true) :
    Inv ⟨x.state.setProc p P, x.woken⟩ := by
  obtain ⟨t, hready⟩ := h.ready
  have hkey : ∀ q, (x.state.setProc p P).key q = x.state.key q := by
    intro q
    rcases eq_or_ne q p with rfl | hq
    · rw [State.key, State.setProc_self, htrue]
    · rw [State.key, State.setProc_of_ne _ _ hq]
  have hstored : P.lab6Stride = BitVec.ofNat 32 P.trueStride := by
    rw [hstride, htrue]
    exact hready.stored p
  have hfield : ∀ q, (q = p → P.allocated = true ∧ P.state = .runnable) →
      (x.state.proc q).allocated = true ∧ (x.state.proc q).state = .runnable →
      ((x.state.setProc p P).proc q).allocated = true ∧
        ((x.state.setProc p P).proc q).state = .runnable := by
    intro q hp hq
    rcases eq_or_ne q p with rfl | hqp
    · rw [State.setProc_self]
      exact hp rfl
    · rw [State.setProc_of_ne _ _ hqp]
      exact hq
  refine ⟨⟨t, hready.setProc P hrq hstored fun _ => htrue⟩, fun a ha b hb => ?_, fun hne q hq hw => ?_,
    h.woken, fun q hq => hfield q (fun heq => hpooled (.inl (heq ▸ hq))) (h.pooled q hq), ?_,
    hfield _ (fun heq => hpooled (.inr heq.symm)) h.idleproc⟩
  · rw [hkey a, hkey b]
    exact h.near a ha b hb
  · show Near ((x.state.setProc p P).key x.state.current) ((x.state.setProc p P).key q)
    rw [hkey, hkey q]
    exact h.nearCurrent hne q hq hw
  · show ((x.state.setProc p P).proc x.state.current).allocated = true
    rcases eq_or_ne x.state.current p with heq | hne
    · rw [heq, State.setProc_self]
      exact hcur heq.symm
    · rw [State.setProc_of_ne _ _ hne]
      exact h.current

/-! ### The steps -/

/-- The process that `do_fork` wakes up. -/
theorem doFork_eq {depth : ℕ} (hcur : p ≠ s.current) (hidle : p ≠ s.idleproc) :
    s.doFork depth p =
      (s.setProc p ⟨true, .runnable, false, 0, false, 0, 0, 1, 0⟩).strideEnqueue depth p := by
  have hself : (s.allocProc p).proc p = ⟨true, .uninit, false, 0, false, 0, 0, 1, 0⟩ :=
    s.setProc_self p _
  have hstate : ((s.allocProc p).proc p).state = .uninit := congrArg Proc.state hself
  have hjoins : (s.allocProc p).joins p := ⟨by rw [hstate]; decide, hcur, hidle⟩
  rw [State.doFork, wakeupProc_joins (by rw [hstate]; decide) hjoins, hself]
  simp only [State.allocProc, State.setProc, Function.update_idem]

theorem Inv.queue_near (h : Inv x) (htimely : Op.schedule.Timely x) :
    AllNear x.state x.state.queue := by
  rw [State.queue]
  split
  case isFalse => exact h.near
  case isTrue hjoin =>
    have hcur : ∀ q ∈ x.state.runList, Near (x.state.key x.state.current) (x.state.key q) := by
      intro q hq
      by_cases hw : q ∈ x.woken
      · exact htimely hjoin.1 hjoin.2 q hw
      · exact h.nearCurrent hjoin.2 q hq hw
    intro a ha b hb
    rw [List.mem_append, List.mem_singleton] at ha hb
    rcases ha with ha | rfl
    · rcases hb with hb | rfl
      · exact h.near a ha b hb
      · exact near_comm (hcur a ha)
    · rcases hb with hb | rfl
      · exact hcur b hb
      · exact ⟨Nat.le_add_right _ _, Nat.le_add_right _ _⟩

theorem Inv.schedule (h : Inv x) (htimely : Op.schedule.Timely x) :
    ∃ s', Op.schedule.Returns x.state s' ∧ Scheduled x.state s' ∧ Inv ⟨s', []⟩ := by
  obtain ⟨t, hready⟩ := h.ready
  obtain ⟨s', t', N, hrun, hready', hs⟩ := schedule_ok hready (h.queue_near htimely)
  have hnear := hs.allNear (h.queue_near htimely)
  have hqueue : ∀ q ∈ x.state.queue,
      (x.state.proc q).allocated = true ∧ (x.state.proc q).state = .runnable := by
    intro q hq
    rw [State.queue] at hq
    split at hq
    case isFalse => exact h.pooled q hq
    case isTrue hjoin =>
      rw [List.mem_append, List.mem_singleton] at hq
      rcases hq with hq | rfl
      · exact h.pooled q hq
      · exact ⟨h.current, hjoin.1⟩
  refine ⟨s', ⟨N, hrun⟩, hs, ⟨t', hready'⟩, hnear.subset fun q hq => mem_competes.2 (.inl hq),
    fun hne q hq _ => ?_, fun q hq => absurd hq List.not_mem_nil, fun q hq => ?_, ?_, ?_⟩
  · exact hnear _ (mem_competes.2 (.inr ⟨rfl, hne⟩)) q (mem_competes.2 (.inl hq))
  · show (s'.proc q).allocated = true ∧ (s'.proc q).state = .runnable
    rw [hs.allocated, hs.state]
    exact hqueue q (hs.competes_subset q (mem_competes.2 (.inl hq)))
  · show (s'.proc s'.current).allocated = true
    rw [hs.allocated]
    rcases hs.picked with ⟨-, hcur, -⟩ | ⟨hmem, -⟩
    · rw [hcur]
      exact h.idleproc.1
    · exact (hqueue _ hmem).1
  · show (s'.proc s'.idleproc).allocated = true ∧ (s'.proc s'.idleproc).state = .runnable
    rw [hs.idleproc, hs.allocated, hs.state]
    exact h.idleproc

/-- An assignment to `current`, which is not `idleproc` or does not get another state. -/
theorem Inv.setCurrent (h : Inv x) {P : Proc} (hrq : P.rq = (x.state.proc x.state.current).rq)
    (hstride : P.lab6Stride = (x.state.proc x.state.current).lab6Stride)
    (htrue : P.trueStride = (x.state.proc x.state.current).trueStride)
    (halloc : P.allocated = (x.state.proc x.state.current).allocated)
    (hstate : x.state.current ≠ x.state.idleproc ∨ P.state = (x.state.proc x.state.current).state) :
    Inv ⟨x.state.setProc x.state.current P, x.woken⟩ := by
  obtain ⟨t, hready⟩ := h.ready
  refine h.setProc hrq hstride htrue (fun hor => ⟨halloc.trans h.current, ?_⟩)
    fun _ => halloc.trans h.current
  have hidle := hor.resolve_left hready.current
  rw [hstate.resolve_left (not_not.2 hidle), hidle]
  exact h.idleproc.2

theorem Inv.step (h : Inv x) {op : Op} (hop : op.Enabled x.state) (htimely : op.Timely x) :
    ∃ s', op.Returns x.state s' ∧ Inv ⟨s', op.woken x⟩ := by
  cases op with
  | fork p =>
    have hfree : ¬ (x.state.proc p).allocated = true := by
      rw [show (x.state.proc p).allocated = false from hop]
      exact Bool.false_ne_true
    have hcur : p ≠ x.state.current := fun heq => hfree (heq ▸ h.current)
    have hidle : p ≠ x.state.idleproc := fun heq => hfree (heq ▸ h.idleproc.1)
    obtain ⟨s', N, hrun, hinv⟩ := h.join (fun hmem => hfree (h.pooled p hmem).1) hcur hidle
      (P := ⟨true, .runnable, false, 0, false, 0, 0, 1, 0⟩) rfl rfl rfl rfl htimely
    exact ⟨s', ⟨N, fun depth hdepth => (doFork_eq hcur hidle).trans (hrun depth hdepth)⟩, hinv⟩
  | wakeup p =>
    obtain ⟨halloc, hz⟩ := hop
    by_cases hjoins : x.state.joins p
    · have hp : p ∉ x.state.runList := fun hmem => hjoins.1 (h.pooled p hmem).2
      obtain ⟨t, hready⟩ := h.ready
      have hrq : (x.state.proc p).rq = false := by
        rw [← Bool.not_eq_true, hready.pool.rq]
        exact hp
      obtain ⟨s', N, hrun, hinv⟩ := h.join hp hjoins.2.1 hjoins.2.2
        (P := { x.state.proc p with state := .runnable }) hrq halloc rfl (hready.stored p)
        (htimely hjoins)
      refine ⟨s', ⟨N, fun depth hdepth => (wakeupProc_joins hz hjoins).trans (hrun depth hdepth)⟩, ?_⟩
      rw [Op.woken, if_pos hjoins]
      exact hinv
    · rw [show Op.woken x (.wakeup p) = x.woken from if_neg hjoins]
      by_cases hrun : (x.state.proc p).state = .runnable
      · refine ⟨x.state, ⟨0, fun depth _ => ?_⟩, h⟩
        exact ((wakeupProc_stays hz hjoins).resolve_right fun hor => hor.2.1 hrun).1
      · refine ⟨_, ⟨0, fun depth _ => ?_⟩,
          h.setProc (P := { x.state.proc p with state := .runnable }) rfl rfl rfl
            (fun _ => ⟨halloc, rfl⟩) fun _ => halloc⟩
        exact ((wakeupProc_stays hz hjoins).resolve_left fun hor => hrun hor.2).1
  | sleep => exact ⟨_, ⟨0, fun _ _ => rfl⟩, h.setCurrent rfl rfl rfl rfl (.inl hop)⟩
  | exit => exact ⟨_, ⟨0, fun _ _ => rfl⟩, h.setCurrent rfl rfl rfl rfl (.inl hop)⟩
  | tick =>
    refine ⟨_, ⟨0, fun _ _ => rfl⟩, ?_⟩
    rw [State.schedClassProcTick]
    split
    case isTrue => exact h.setCurrent rfl rfl rfl rfl (.inr rfl)
    case isFalse => exact h.setCurrent rfl rfl rfl rfl (.inr rfl)
  | yield => exact ⟨_, ⟨0, fun _ _ => rfl⟩, h.setCurrent rfl rfl rfl rfl (.inr rfl)⟩
  | setPriority priority =>
    exact ⟨_, ⟨0, fun _ _ => rfl⟩, h.setCurrent rfl rfl rfl rfl (.inr rfl)⟩
  | free p =>
    obtain ⟨hz, hcur⟩ := hop
    have hnot : ¬ (x.state.proc p).state = .runnable := by
      rw [hz]
      decide
    refine ⟨_, ⟨0, fun _ _ => rfl⟩, h.setProc rfl rfl rfl (fun hor => absurd ?_ hnot)
      fun heq => absurd heq hcur⟩
    rcases hor with hmem | rfl
    · exact (h.pooled p hmem).2
    · exact h.idleproc.2
  | schedule =>
    obtain ⟨s', hreturns, -, hinv⟩ := h.schedule htimely
    exact ⟨s', hreturns, hinv⟩

theorem Inv.next (h : Inv x) {op : Op} (htimely : op.Timely x) (hnext : Next x op y) : Inv y := by
  obtain ⟨hop, hreturns, hwoken⟩ := hnext
  obtain ⟨s', hreturns', hinv⟩ := h.step hop htimely
  obtain ⟨state, woken⟩ := y
  cases hreturns.unique hreturns'
  cases hwoken
  exact hinv

/-! ### The order of the pool -/

/-- The run pool is ordered by the true strides. -/
structure PoolOrdered (s : State) : Prop where
  near : AllNear s s.runList
  comp : ∀ p ∈ s.runList, ∀ q ∈ s.runList, s.procStrideCompF p q = order (s.key p) (s.key q)
  pick : ∀ p ∈ s.stridePickNext.1, p ∈ s.runList ∧ ∀ q ∈ s.runList, s.key p ≤ s.key q

theorem Inv.poolOrdered (h : Inv x) : PoolOrdered x.state := by
  obtain ⟨t, hready⟩ := h.ready
  refine ⟨h.near, fun p hp q hq => procStrideCompF_eq hready.stored (h.near p hp q hq),
    fun p hp => ?_⟩
  rw [State.stridePickNext, hready.pool.root] at hp
  cases t with
  | nil => cases hp
  | node a l r =>
    cases hp
    refine ⟨hready.pool.perm.mem_iff.1 List.mem_cons_self, fun q hq => ?_⟩
    exact hready.pool.ordered.le rfl (hready.pool.perm.mem_iff.2 hq)

/-- Whether a step is timely shows in the pool after it, or in the one that `schedule` picks from. -/
theorem Inv.timely_iff (h : Inv x) {op : Op} (hnext : Next x op y) :
    op.Timely x ↔ AllNear y.state y.state.runList ∧
      (op = .schedule → AllNear x.state x.state.queue) := by
  refine ⟨fun htimely => ⟨(h.next htimely hnext).near, ?_⟩, fun ⟨hnear, hqueue⟩ => ?_⟩
  · rintro rfl
    exact h.queue_near htimely
  obtain ⟨hop, ⟨N, hrun⟩, -⟩ := hnext
  have hret := hrun N le_rfl
  cases op with
  | fork p =>
    have hfree : ¬ (x.state.proc p).allocated = true := by
      rw [show (x.state.proc p).allocated = false from hop]
      exact Bool.false_ne_true
    have hcur : p ≠ x.state.current := fun heq => hfree (heq ▸ h.current)
    have hidle : p ≠ x.state.idleproc := fun heq => hfree (heq ▸ h.idleproc.1)
    obtain ⟨hlist, hkey⟩ := strideEnqueue_fields ((doFork_eq hcur hidle).symm.trans hret)
    intro q hq
    have hmem : ∀ a, a ∈ y.state.runList ↔ a ∈ x.state.runList ∨ a = p := by
      intro a
      rw [hlist, List.mem_append, List.mem_singleton]
      rfl
    have hqp : q ≠ p := fun heq => hfree (h.pooled p (heq ▸ hq)).1
    have hpq := hnear p ((hmem p).2 (.inr rfl)) q ((hmem q).2 (.inl hq))
    rw [hkey p, hkey q, State.key, State.key, State.setProc_self, State.setProc_of_ne _ _ hqp] at hpq
    exact hpq
  | wakeup p =>
    intro hjoins q hq
    obtain ⟨hlist, hkey⟩ := strideEnqueue_fields ((wakeupProc_joins hop.2 hjoins).symm.trans hret)
    have hmem : ∀ a, a ∈ y.state.runList ↔ a ∈ x.state.runList ∨ a = p := by
      intro a
      rw [hlist, List.mem_append, List.mem_singleton]
      rfl
    have hqp : q ≠ p := fun heq => hjoins.1 (h.pooled p (heq ▸ hq)).2
    have hpq := hnear p ((hmem p).2 (.inr rfl)) q ((hmem q).2 (.inl hq))
    rw [hkey p, hkey q, State.key, State.key, State.setProc_self, State.setProc_of_ne _ _ hqp] at hpq
    exact hpq
  | schedule =>
    intro hrunnable hidle q hq
    have hqueue' : x.state.queue = x.state.runList ++ [x.state.current] := if_pos ⟨hrunnable, hidle⟩
    refine hqueue rfl _ ?_ q ?_
    · rw [hqueue']
      exact List.mem_append_right _ List.mem_cons_self
    · rw [hqueue']
      exact List.mem_append_left _ (h.woken q hq)
  | sleep => trivial
  | exit => trivial
  | tick => trivial
  | yield => trivial
  | setPriority priority => trivial
  | free p => trivial

/-- The state in `proc_init`, where there is only `idleproc`. -/
def boot (links : Links ℕ) : State where
  proc := fun p => if p = 0 then ⟨true, .runnable, false, 0, true, 0, 0, 1, 0⟩
    else ⟨false, .uninit, false, 0, false, 0, 0, 0, 0⟩
  links := links
  lab6RunPool := none
  runList := []
  procNum := 0
  maxTimeSlice := MAX_TIME_SLICE
  current := 0
  idleproc := 0

theorem inv_boot (links : Links ℕ) : Inv ⟨boot links, []⟩ := by
  have hproc : ∀ p, ((boot links).proc p).rq = false ∧ ((boot links).proc p).lab6Stride = 0 ∧
      ((boot links).proc p).trueStride = 0 := by
    intro p
    show ((if p = 0 then _ else _ : Proc)).rq = false ∧ _
    by_cases hp : p = 0
    · simp [boot, hp]
    · simp [boot, hp]
  refine ⟨⟨.nil, ⟨trivial, rfl, nofun, trivial, .refl _, List.nodup_nil, fun p => ?_, rfl⟩, fun p => ?_,
    nofun, nofun⟩, nofun, fun hne => absurd rfl hne, nofun, nofun, rfl, rfl, rfl⟩
  · rw [(hproc p).1]
    exact iff_of_false Bool.false_ne_true List.not_mem_nil
  · rw [(hproc p).2.1, (hproc p).2.2]
    rfl

/-- **The order of the pool.**  It is kept in every run of timely steps: in every state, and in the pool
that `schedule` picks the next process from.  A step that is not timely ends it. -/
theorem pool_ordered_iff {links : Links ℕ}
    (hrun : ReflTransGen TimelyStep ⟨boot links, []⟩ x) :
    PoolOrdered x.state ∧
      (Op.schedule.Timely x → ∃ s', Op.schedule.Returns x.state s' ∧ (x.state.queue ≠ [] →
        s'.current ∈ x.state.queue ∧ ∀ q ∈ x.state.queue, x.state.key s'.current ≤ x.state.key q)) ∧
      ∀ op y, Next x op y → (op.Timely x ↔ AllNear y.state y.state.runList ∧
        (op = .schedule → AllNear x.state x.state.queue)) := by
  have h : Inv x := Transition.invariant (P := Inv)
    (fun a b ha ⟨_, htimely, hnext⟩ => ha.next htimely hnext) hrun (inv_boot links)
  refine ⟨h.poolOrdered, fun htimely => ?_, fun op y hnext => h.timely_iff hnext⟩
  obtain ⟨s', hreturns, hs, -⟩ := h.schedule htimely
  refine ⟨s', hreturns, fun hne => ?_⟩
  rcases hs.picked with ⟨hempty, -⟩ | ⟨hmem, hleast, -⟩
  · exact absurd hempty hne
  · exact ⟨hmem, hleast⟩

/-- Two processes are created before the first one runs. -/
theorem pool_ordered_two :
    ∃ x, ReflTransGen TimelyStep ⟨boot ⟨fun _ => none, fun _ => none, fun _ => none⟩, []⟩ x ∧
      x.state.current = 2 ∧ x.state.runList = [1] ∧ x.state.key 2 = bigStride ∧ PoolOrdered x.state := by
  have hcheck : (do
      let s ← Op.run 10 (boot ⟨fun _ => none, fun _ => none, fun _ => none⟩) (.fork 1)
      require ((s.proc 2).allocated = false ∧ ∀ q ∈ s.runList, s.key q = 0) .endless
      let s ← Op.run 10 s (.fork 2)
      require (s.current = s.idleproc) .endless
      Op.run 10 s .schedule : Except Panic State).toOption.any (fun s => s.current = 2 ∧
        s.runList = [1] ∧ s.key 2 = bigStride) = true := by decide
  obtain ⟨s₃, hrun, hs₃⟩ := exists_ok_of_any hcheck
  obtain ⟨s₁, h₁, hrun⟩ := bind_eq_ok.1 hrun
  obtain ⟨_, hfree, hrun⟩ := bind_eq_ok.1 hrun
  obtain ⟨s₂, h₂, hrun⟩ := bind_eq_ok.1 hrun
  obtain ⟨_, hidle, h₃⟩ := bind_eq_ok.1 hrun
  obtain ⟨hcur, hlist, hkey⟩ := of_decide_eq_true hs₃
  obtain ⟨hfree, hzero⟩ := require_eq_ok.1 hfree
  have hnext : ∀ {s s' : State} {w : List ℕ} (op : Op), op.Timely ⟨s, w⟩ → op.Enabled s →
      op.run 10 s = .ok s' → TimelyStep ⟨s, w⟩ ⟨s', op.woken ⟨s, w⟩⟩ :=
    fun op htimely hop hret => ⟨op, htimely, hop, .of_ok hret, rfl⟩
  have hboot : Op.Enabled (boot ⟨fun _ => none, fun _ => none, fun _ => none⟩) (.fork 1) :=
    show _ = false from rfl
  have hnear : ∀ q ∈ s₁.runList, Near 0 (s₁.key q) := by
    intro q hq
    rw [hzero q hq]
    exact ⟨Nat.zero_le _, Nat.zero_le _⟩
  have hreach : ReflTransGen TimelyStep ⟨boot ⟨fun _ => none, fun _ => none, fun _ => none⟩, []⟩
      ⟨s₃, _⟩ :=
    .tail (.tail (.single (hnext (.fork 1) nofun hboot h₁)) (hnext (.fork 2) hnear hfree h₂))
      (hnext .schedule (fun _ hne => absurd (require_eq_ok.1 hidle) hne) trivial h₃)
  exact ⟨_, hreach, hcur, hlist, hkey, (pool_ordered_iff hreach).1⟩

set_option maxRecDepth 4000 in
/-- Processes 1 and 2 have come to stride `2 * BIG_STRIDE` when process 3 is created: it is taken for the
last one though its stride is 0. -/
theorem pool_ordered_fork :
    ∃ x, ReflTransGen Step ⟨boot ⟨fun _ => none, fun _ => none, fun _ => none⟩, []⟩ x ∧
      x.state.runList = [2, 3] ∧ x.state.key 2 = 2 * bigStride ∧ x.state.key 3 = 0 ∧
      x.state.stridePickNext.1 = some 2 ∧ ¬ PoolOrdered x.state := by
  have hcheck : (do
      let s ← Op.run 10 (boot ⟨fun _ => none, fun _ => none, fun _ => none⟩) (.fork 1)
      let s ← Op.run 10 s .schedule
      require ((s.proc 2).allocated = false) .endless
      let s ← Op.run 10 s (.fork 2)
      let s ← Op.run 10 s .schedule
      let s ← Op.run 10 s .schedule
      let s ← Op.run 10 s .schedule
      require ((s.proc 3).allocated = false) .endless
      Op.run 10 s (.fork 3) : Except Panic State).toOption.any (fun s => s.runList = [2, 3] ∧
        s.key 2 = 2 * bigStride ∧ s.key 3 = 0 ∧ s.stridePickNext.1 = some 2) = true := by decide
  obtain ⟨s₇, hrun, hs₇⟩ := exists_ok_of_any hcheck
  obtain ⟨s₁, h₁, hrun⟩ := bind_eq_ok.1 hrun
  obtain ⟨s₂, h₂, hrun⟩ := bind_eq_ok.1 hrun
  obtain ⟨_, htwo, hrun⟩ := bind_eq_ok.1 hrun
  obtain ⟨s₃, h₃, hrun⟩ := bind_eq_ok.1 hrun
  obtain ⟨s₄, h₄, hrun⟩ := bind_eq_ok.1 hrun
  obtain ⟨s₅, h₅, hrun⟩ := bind_eq_ok.1 hrun
  obtain ⟨s₆, h₆, hrun⟩ := bind_eq_ok.1 hrun
  obtain ⟨_, hthree, h₇⟩ := bind_eq_ok.1 hrun
  obtain ⟨hlist, htwice, hnew, hpick⟩ := of_decide_eq_true hs₇
  replace htwo : (s₂.proc 2).allocated = false := require_eq_ok.1 htwo
  replace hthree : (s₆.proc 3).allocated = false := require_eq_ok.1 hthree
  have hnext : ∀ {s s' : State} {w : List ℕ} (op : Op), op.Enabled s → op.run 10 s = .ok s' →
      Step ⟨s, w⟩ ⟨s', op.woken ⟨s, w⟩⟩ := fun op hop hret => ⟨op, hop, .of_ok hret, rfl⟩
  have hboot : Op.Enabled (boot ⟨fun _ => none, fun _ => none, fun _ => none⟩) (.fork 1) :=
    show _ = false from rfl
  have hreach : ReflTransGen Step ⟨boot ⟨fun _ => none, fun _ => none, fun _ => none⟩, []⟩ ⟨s₇, _⟩ :=
    .tail (.tail (.tail (.tail (.tail (.tail (.single (hnext (.fork 1) hboot h₁))
      (hnext .schedule trivial h₂)) (hnext (.fork 2) htwo h₃)) (hnext .schedule trivial h₄))
      (hnext .schedule trivial h₅)) (hnext .schedule trivial h₆)) (hnext (.fork 3) hthree h₇)
  refine ⟨_, hreach, hlist, htwice, hnew, hpick, fun hordered => ?_⟩
  have hleast := (hordered.pick 2 hpick).2 3 (by rw [hlist]; decide)
  rw [htwice, hnew] at hleast
  exact absurd hleast (by decide)

end Ucore.Stride
