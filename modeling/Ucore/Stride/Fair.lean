import Ucore.Lib.Transition
import Ucore.Stride.Schedule

/-!
# Fairness on a closed set of processes

`Closed s` is a start with equal strides, where every process that competes is runnable and has a
priority.  In the runs of `schedule` from there nobody joins and nobody leaves, so the strides stay near
each other (`Scheduled.allNear`), and the true stride of a process counts how often it has been picked
(`Since.counts`).  The bound on the pick counts follows (`stride_fair`).
-/

namespace Ucore.Stride

open Fallible Relation HeapTree

variable {s₀ s s' : State} {p q : ℕ} {t : BinTree ℕ}

/-- One call of `schedule`, which comes back. -/
def State.Schedules (s s' : State) : Prop := ∃ N, ∀ depth, N ≤ depth → s.schedule depth = .ok s'

theorem State.Schedules.of_ok {depth : ℕ} (h : s.schedule depth = .ok s') : s.Schedules s' :=
  ⟨depth, fun _ hle => schedule_mono h hle⟩

theorem State.Schedules.unique {s₁ s₂ : State} (h₁ : s.Schedules s₁) (h₂ : s.Schedules s₂) : s₁ = s₂ := by
  obtain ⟨N₁, h₁⟩ := h₁
  obtain ⟨N₂, h₂⟩ := h₂
  have heq := (h₁ (max N₁ N₂) (Nat.le_max_left _ _)).symm.trans (h₂ (max N₁ N₂) (Nat.le_max_right _ _))
  exact Except.ok.inj heq

/-- A start with equal strides, from which the true strides count. -/
structure Closed (s : State) : Prop where
  ready : ∃ t, Ready s t
  runnable : ∀ p ∈ s.competes, (s.proc p).state = .runnable
  priority : ∀ p ∈ s.competes, (s.proc p).lab6Priority ≠ 0
  equal : ∃ stride : BitVec 32, ∀ p ∈ s.competes, (s.proc p).lab6Stride = stride ∧ s.key p = stride.toNat

/-- How often `p` has been picked since the start. -/
def picks (s₀ s : State) (p : ℕ) : ℕ := (s.proc p).runs - (s₀.proc p).runs

/-- The state of a run from `s₀`. -/
structure Since (s₀ s : State) : Prop where
  ready : ∃ t, Ready s t
  near : AllNear s s.competes
  competes : ∀ q, q ∈ s.competes ↔ q ∈ s₀.competes
  state : ∀ q, (s.proc q).state = (s₀.proc q).state
  priority : ∀ q ∈ s₀.competes, (s.proc q).lab6Priority = (s₀.proc q).lab6Priority
  counts : ∀ q ∈ s₀.competes, (s₀.proc q).runs ≤ (s.proc q).runs ∧
    s.key q = s₀.key q + picks s₀ s q * stepOf (s₀.proc q)

theorem Closed.since (h : Closed s) : Since s s := by
  obtain ⟨stride, hstride⟩ := h.equal
  refine ⟨h.ready, fun a ha b hb => ?_, fun _ => .rfl, fun _ => rfl, fun _ _ => rfl,
    fun q _ => ⟨le_rfl, ?_⟩⟩
  · rw [(hstride a ha).2, (hstride b hb).2]
    exact ⟨Nat.le_add_right _ _, Nat.le_add_right _ _⟩
  · rw [picks, Nat.sub_self, Nat.zero_mul, Nat.add_zero]

/-- If nobody sleeps, all that compete are in the queue. -/
theorem mem_queue_iff (h : ∀ p ∈ s.competes, (s.proc p).state = .runnable) :
    p ∈ s.queue ↔ p ∈ s.competes := by
  refine ⟨mem_competes_of_mem_queue, fun hp => ?_⟩
  rw [State.queue]
  rcases mem_competes.1 hp with hmem | ⟨rfl, hne⟩
  · split
    case isTrue => exact List.mem_append_left _ hmem
    case isFalse => exact hmem
  · rw [if_pos ⟨h _ hp, hne⟩]
    exact List.mem_append_right _ List.mem_cons_self

/-- After `schedule`, those that compete are those of the queue. -/
theorem Scheduled.competes_iff (hs : Scheduled s s') (h : Ready s t) :
    q ∈ s'.competes ↔ q ∈ s.queue := by
  refine ⟨hs.competes_subset q, fun hq => ?_⟩
  rcases hs.picked with ⟨hempty, -⟩ | ⟨-, -, -, -, hlist⟩
  · rw [hempty] at hq
    cases hq
  · rw [mem_competes, hlist, hs.idleproc]
    rcases eq_or_ne q s'.current with rfl | hne
    · refine .inr ⟨rfl, fun heq => h.idleproc_not_mem_queue (heq ▸ hq)⟩
    · exact .inl ((List.mem_erase_of_ne hne).2 hq)

theorem Since.runnable (h : Since s₀ s) (hc : Closed s₀) :
    ∀ p ∈ s.competes, (s.proc p).state = .runnable := by
  intro p hp
  rw [h.state]
  exact hc.runnable p ((h.competes p).1 hp)

theorem Since.scheduled (h : Since s₀ s) (hc : Closed s₀) (hready : Ready s t) (hs : Scheduled s s')
    (hready' : ∃ t, Ready s' t) : Since s₀ s' := by
  have hqueue : ∀ q, q ∈ s.queue ↔ q ∈ s₀.competes := fun q =>
    (mem_queue_iff (h.runnable hc)).trans (h.competes q)
  refine ⟨hready', hs.allNear (h.near.subset fun _ => mem_competes_of_mem_queue), fun q => (hs.competes_iff hready).trans (hqueue q),
    fun q => (hs.state q).trans (h.state q), fun q hq => ?_, fun q hq => ?_⟩
  · have heq := h.priority q hq
    rw [hs.priority q (heq.symm ▸ hc.priority q hq), heq]
  · obtain ⟨hle, hkey⟩ := h.counts q hq
    rcases hs.picked with ⟨hempty, -⟩ | ⟨-, -, hpick, hruns, -⟩
    · exact absurd ((hqueue q).2 hq) (hempty ▸ List.not_mem_nil)
    rcases eq_or_ne q s'.current with rfl | hne
    · -- the pick moves the stride by one step
      have hstep : stepOf (s.proc s'.current) = stepOf (s₀.proc s'.current) := by
        rw [stepOf, stepOf, h.priority _ hq]
      refine ⟨by omega, ?_⟩
      rw [hpick, hkey, hstep, picks, picks, hruns, Nat.succ_sub hle, Nat.succ_mul, Nat.add_assoc]
    · rw [picks, (hs.other q hne).2, (hs.other q hne).1]
      exact ⟨hle, hkey⟩

theorem Since.schedules (h : Since s₀ s) (hc : Closed s₀) :
    ∃ s', s.Schedules s' ∧ Scheduled s s' ∧ Since s₀ s' := by
  obtain ⟨t, hready⟩ := h.ready
  obtain ⟨s', t', N, hrun, hready', hs⟩ := schedule_ok hready
    (h.near.subset fun _ => mem_competes_of_mem_queue)
  exact ⟨s', ⟨N, hrun⟩, hs, h.scheduled hc hready hs ⟨t', hready'⟩⟩

theorem Since.of_run (hc : Closed s₀) (hrun : ReflTransGen State.Schedules s₀ s) : Since s₀ s := by
  refine Transition.invariant (P := Since s₀) (fun a b ha hstep => ?_) hrun hc.since
  obtain ⟨b', hstep', -, hb⟩ := ha.schedules hc
  rw [hstep.unique hstep']
  exact hb

theorem stepOf_eq {P : Proc} (h : P.lab6Priority ≠ 0) :
    stepOf P = bigStride / P.lab6Priority.toNat := by
  rw [stepOf, if_neg h, BitVec.toNat_udiv]
  rfl

/-- **Fairness.**  In every run of `schedule` from a start with equal strides, the comparison orders the
processes by their true strides, the next one has a least stride, and the shares are proportional. -/
theorem stride_fair (hc : Closed s₀) (hrun : ReflTransGen State.Schedules s₀ s) :
    AllNear s s₀.competes ∧
      (∀ p ∈ s₀.competes, ∀ q ∈ s₀.competes, s.procStrideCompF p q = order (s.key p) (s.key q)) ∧
      ((∃ s', s.Schedules s') ∧ ∀ s', s.Schedules s' → s₀.competes ≠ [] →
        s'.current ∈ s₀.competes ∧ ∀ q ∈ s₀.competes, s.key s'.current ≤ s.key q) ∧
      (∀ p ∈ s₀.competes, s.key p =
        s₀.key p + picks s₀ s p * (bigStride / (s₀.proc p).lab6Priority.toNat)) ∧
      ∀ p ∈ s₀.competes, ∀ q ∈ s₀.competes,
        ((picks s₀ s p * (bigStride / (s₀.proc p).lab6Priority.toNat) : ℕ) -
          (picks s₀ s q * (bigStride / (s₀.proc q).lab6Priority.toNat) : ℕ) : ℤ).natAbs ≤ bigStride := by
  have h := Since.of_run hc hrun
  obtain ⟨t, hready⟩ := h.ready
  have hnear : AllNear s s₀.competes := fun a ha b hb =>
    h.near a ((h.competes a).2 ha) b ((h.competes b).2 hb)
  have hcounts : ∀ p ∈ s₀.competes, s.key p =
      s₀.key p + picks s₀ s p * (bigStride / (s₀.proc p).lab6Priority.toNat) := by
    intro p hp
    rw [(h.counts p hp).2, stepOf_eq (hc.priority p hp)]
  obtain ⟨s', hnext, hs, -⟩ := h.schedules hc
  refine ⟨hnear, fun p hp q hq => procStrideCompF_eq hready.stored (hnear p hp q hq),
    ⟨⟨s', hnext⟩, fun s'' hnext' hne => ?_⟩, hcounts, fun p hp q hq => ?_⟩
  · rw [hnext'.unique hnext]
    have hqueue : ∀ q, q ∈ s.queue ↔ q ∈ s₀.competes := fun q =>
      (mem_queue_iff (h.runnable hc)).trans (h.competes q)
    rcases hs.picked with ⟨hempty, -⟩ | ⟨hmem, hleast, -⟩
    · obtain ⟨a, ha⟩ := List.exists_mem_of_ne_nil _ hne
      exact absurd ((hqueue a).2 ha) (hempty ▸ List.not_mem_nil)
    · exact ⟨(hqueue _).1 hmem, fun q hq => hleast q ((hqueue q).2 hq)⟩
  · obtain ⟨stride, hstride⟩ := hc.equal
    have hnearpq := hnear p hp q hq
    rw [hcounts p hp, hcounts q hq, (hstride p hp).2, (hstride q hq).2] at hnearpq
    obtain ⟨h1, h2⟩ := hnearpq
    generalize picks s₀ s p * (bigStride / (s₀.proc p).lab6Priority.toNat) = x at *
    generalize picks s₀ s q * (bigStride / (s₀.proc q).lab6Priority.toNat) = y at *
    omega

/-- Process 2 runs and process 1 waits, both one step before the stored strides wrap. -/
def fairStart : State where
  proc := fun p =>
    ⟨true, .runnable, p = 1, 5, false, 0, 0xfffffff0, if p = 2 then 2 else 1, 0xfffffff0⟩
  links := ⟨fun _ => none, fun _ => none, fun _ => none⟩
  lab6RunPool := some 1
  runList := [1]
  procNum := 1
  maxTimeSlice := MAX_TIME_SLICE
  current := 2
  idleproc := 0

theorem closed_fairStart : Closed fairStart := by
  refine ⟨⟨.node 1 .nil .nil, ⟨⟨rfl, rfl, nofun, nofun, trivial, trivial⟩, rfl, fun _ _ => rfl,
    ⟨nofun, trivial, trivial⟩, .refl _, List.nodup_singleton 1, fun p => ?_, rfl⟩, fun _ => rfl,
    by decide, by decide⟩, by decide, by decide, 0xfffffff0, by decide⟩
  show decide (p = 1) = true ↔ p ∈ [1]
  rw [decide_eq_true_iff, List.mem_singleton]

/-- The process of priority 2 gets two turns, the one of priority 1 gets one. -/
theorem stride_fair_two : ∃ s, ReflTransGen State.Schedules fairStart s ∧
    picks fairStart s 1 = 1 ∧ picks fairStart s 2 = 2 ∧ (s.proc 2).lab6Stride = 0x7fffffee ∧
      s.procStrideCompF 1 2 = 1 ∧ AllNear s [2, 1] := by
  have hcheck : (do let s ← fairStart.schedule 10; let s ← s.schedule 10; s.schedule 10 :
      Except Panic State).toOption.any (fun s => picks fairStart s 1 = 1 ∧ picks fairStart s 2 = 2 ∧
        (s.proc 2).lab6Stride = 0x7fffffee ∧ s.procStrideCompF 1 2 = 1) = true := by decide
  obtain ⟨s₃, hrun, hs₃⟩ := exists_ok_of_any hcheck
  obtain ⟨s₁, h₁, hrun⟩ := bind_eq_ok.1 hrun
  obtain ⟨s₂, h₂, h₃⟩ := bind_eq_ok.1 hrun
  have hreach : ReflTransGen State.Schedules fairStart s₃ :=
    .tail (.tail (.single (.of_ok h₁)) (.of_ok h₂)) (.of_ok h₃)
  obtain ⟨hone, htwo, hstride, hcomp⟩ := of_decide_eq_true hs₃
  exact ⟨s₃, hreach, hone, htwo, hstride, hcomp, (stride_fair closed_fairStart hreach).1⟩

end Ucore.Stride
