import Ucore.Sync.Monitor

/-!
# Runs of a monitor

A process of the monitor is active if it runs there or has been woken to do so.  At most one process
is active, and while one is, `mutex` is taken: this is the token that `mutex`, `next` and the
condition variables hand on.

* `monitor`: mutual exclusion, what the counters and the values of the semaphores say, and the
  hand-over to the process that has waited longest, in every state a run reaches.
-/

namespace Ucore.Monitor

open Sync RefCount Function Relation

variable {π κ : Type*} {sem : Place κ → Semaphore π} {pc : π → Pc κ} {p q w : π} {l : Place κ}
  {rest : List π} {c : κ}

/-- The process runs in the monitor, or it may go on after a `down`. -/
def Active (sem : Place κ → Semaphore π) (pc : π → Pc κ) (p : π) : Prop :=
  pc p = .inside ∨ ∃ l, pc p = .downOf l ∧ p ∉ (sem l).waitQueue

/-- The queues have processes that are in `down` of their semaphore, and only `mutex` has tokens. -/
structure Queues (sem : Place κ → Semaphore π) (pc : π → Pc κ) : Prop where
  nodup : ∀ l, (sem l).waitQueue.Nodup
  mem : ∀ l, ∀ p ∈ (sem l).waitQueue, pc p = .downOf l
  zero : ∀ l, l ≠ .mutex → (sem l).value = 0

/-- A process in `down` that is not active is in the queue. -/
theorem mem_of_not_active (hp : pc p = .downOf l) (h : ¬Active sem pc p) :
    p ∈ (sem l).waitQueue := by
  by_contra hnot
  exact h (Or.inr ⟨l, hp, hnot⟩)

theorem Queues.not_active (h : Queues sem pc) (hp : p ∈ (sem l).waitQueue) : ¬Active sem pc p := by
  have hpc := h.mem l p hp
  rintro (hin | ⟨l', hl', hnot⟩)
  · exact nomatch hpc.symm.trans hin
  · cases hpc.symm.trans hl'
    exact hnot hp

theorem up_cons (hq : (sem l).waitQueue = w :: rest) :
    (sem l).up = { sem l with waitQueue := rest } := by
  unfold Semaphore.up
  rw [hq]

theorem up_nil (hq : (sem l).waitQueue = []) : (sem l).up = ⟨(sem l).value + 1, []⟩ := by
  unfold Semaphore.up
  rw [hq]

theorem down_wait (hv : ¬0 < (sem l).value) :
    (sem l).down p = { sem l with waitQueue := (sem l).waitQueue ++ [p] } :=
  if_neg hv

/-! ### One semaphore or one process changes -/

section

variable [DecidableEq κ]

/-- `up` of a semaphore with sleepers: the first of them is active. -/
theorem Queues.up (h : Queues sem pc) (hq : (sem l).waitQueue = w :: rest) :
    Queues (update sem l (sem l).up) pc ∧
      ∀ q, Active (update sem l (sem l).up) pc q ↔ Active sem pc q ∨ q = w := by
  have hw : w ∈ (sem l).waitQueue := by
    rw [hq]
    exact List.mem_cons_self
  have hnodup : (w :: rest).Nodup := hq ▸ h.nodup l
  have hqueue : ∀ l' q, q ∈ (update sem l (sem l).up l').waitQueue ↔
      q ∈ (sem l').waitQueue ∧ q ≠ w := by
    intro l' q
    by_cases hl : l' = l
    · rw [hl, update_self, up_cons hq, hq, List.mem_cons]
      constructor
      · intro hmem
        exact ⟨Or.inr hmem, fun hqw => (List.nodup_cons.mp hnodup).1 (hqw ▸ hmem)⟩
      · rintro ⟨hmem, hne⟩
        exact hmem.resolve_left hne
    · rw [update_of_ne hl]
      refine (and_iff_left_of_imp ?_).symm
      intro hmem hqw
      have hpc := h.mem l' q hmem
      rw [hqw, h.mem l w hw] at hpc
      cases hpc
      exact hl rfl
  constructor
  · constructor
    · intro l'
      by_cases hl : l' = l
      · rw [hl, update_self, up_cons hq]
        exact (List.nodup_cons.mp hnodup).2
      · rw [update_of_ne hl]
        exact h.nodup l'
    · intro l' q hmem
      exact h.mem l' q ((hqueue l' q).mp hmem).1
    · intro l' hl'
      by_cases hl : l' = l
      · rw [hl, update_self, up_cons hq]
        exact h.zero l (hl ▸ hl')
      · rw [update_of_ne hl]
        exact h.zero l' hl'
  · intro q
    constructor
    · rintro (hin | ⟨l', hl', hnot⟩)
      · exact Or.inl (Or.inl hin)
      · by_cases hqw : q = w
        · exact Or.inr hqw
        · exact Or.inl (Or.inr ⟨l', hl', fun hmem => hnot ((hqueue l' q).mpr ⟨hmem, hqw⟩)⟩)
    · rintro ((hin | ⟨l', hl', hnot⟩) | hqw)
      · exact Or.inl hin
      · exact Or.inr ⟨l', hl', fun hmem => hnot ((hqueue l' q).mp hmem).1⟩
      · refine Or.inr ⟨l, ?_, fun hmem => ((hqueue l q).mp hmem).2 hqw⟩
        rw [hqw]
        exact h.mem l w hw

variable [DecidableEq π]

/-- A process goes to sleep in `down`. -/
theorem Queues.sleep (h : Queues sem pc) (hp : ∀ l, pc p ≠ .downOf l) (hv : ¬0 < (sem l).value) :
    Queues (update sem l ((sem l).down p)) (update pc p (.downOf l)) ∧
      ∀ q, Active (update sem l ((sem l).down p)) (update pc p (.downOf l)) q ↔
        Active sem pc q ∧ q ≠ p := by
  have hnot : ∀ l', p ∉ (sem l').waitQueue := fun l' hmem => hp l' (h.mem l' p hmem)
  have hqueue : ∀ l' q, q ∈ (update sem l ((sem l).down p) l').waitQueue ↔
      q ∈ (sem l').waitQueue ∨ q = p ∧ l' = l := by
    intro l' q
    by_cases hl : l' = l
    · rw [hl, update_self, down_wait hv, and_iff_left rfl, List.mem_append, List.mem_singleton]
    · rw [update_of_ne hl]
      exact (or_iff_left fun hand => hl hand.2).symm
  constructor
  · constructor
    · intro l'
      by_cases hl : l' = l
      · rw [hl, update_self, down_wait hv]
        show ((sem l).waitQueue ++ [p]).Nodup
        rw [List.nodup_append]
        refine ⟨h.nodup l, List.nodup_singleton p, ?_⟩
        intro a ha b hb hab
        rw [List.mem_singleton] at hb
        subst hb hab
        exact hnot l ha
      · rw [update_of_ne hl]
        exact h.nodup l'
    · intro l' q hmem
      rcases (hqueue l' q).mp hmem with hmem | ⟨hqp, hl⟩
      · have hqp : q ≠ p := fun hqp => hnot l' (hqp ▸ hmem)
        rw [update_of_ne hqp]
        exact h.mem l' q hmem
      · rw [hqp, update_self, hl]
    · intro l' hl'
      by_cases hl : l' = l
      · rw [hl, update_self, down_wait hv]
        exact h.zero l (hl ▸ hl')
      · rw [update_of_ne hl]
        exact h.zero l' hl'
  · intro q
    by_cases hqp : q = p
    · apply iff_of_false _ fun hand => hand.2 hqp
      rw [hqp]
      rintro (hin | ⟨l', hl', hmem⟩)
      · rw [update_self] at hin
        exact nomatch hin
      · rw [update_self] at hl'
        cases hl'
        exact hmem ((hqueue l p).mpr (Or.inr ⟨rfl, rfl⟩))
    · rw [and_iff_left hqp]
      unfold Active
      rw [update_of_ne hqp]
      apply or_congr Iff.rfl
      apply exists_congr
      intro l'
      apply and_congr Iff.rfl
      rw [hqueue, or_iff_left (fun hand => hqp hand.1)]

omit [DecidableEq κ] in
/-- A process that is in no queue goes to a place outside `down`. -/
theorem Queues.goto (h : Queues sem pc) (hp : ∀ l, p ∉ (sem l).waitQueue) (c : Pc κ) :
    Queues sem (update pc p c) := by
  constructor
  · exact h.nodup
  · intro l q hmem
    have hqp : q ≠ p := fun hqp => hp l (hqp ▸ hmem)
    rw [update_of_ne hqp]
    exact h.mem l q hmem
  · exact h.zero

omit [DecidableEq κ] in
theorem active_goto_inside : Active sem (update pc p .inside) q ↔ Active sem pc q ∨ q = p := by
  unfold Active
  by_cases hqp : q = p
  · rw [hqp, update_self]
    exact iff_of_true (Or.inl rfl) (Or.inr rfl)
  · rw [update_of_ne hqp]
    exact (or_iff_left hqp).symm

omit [DecidableEq κ] in
theorem active_goto_outside : Active sem (update pc p .outside) q ↔ Active sem pc q ∧ q ≠ p := by
  unfold Active
  by_cases hqp : q = p
  · rw [hqp, update_self]
    apply iff_of_false _ fun hand => hand.2 rfl
    rintro (hin | ⟨l, hl, -⟩)
    · exact nomatch hin
    · exact nomatch hl
  · rw [update_of_ne hqp]
    exact (and_iff_left hqp).symm

end

/-! ### The invariant -/

/-- The token is in `mutex`, and nobody is inside; or one process has it. -/
inductive Token (sem : Place κ → Semaphore π) (pc : π → Pc κ) : Prop
  | free (hv : (sem .mutex).value = 1) (hq : (sem .mutex).waitQueue = [])
      (h : ∀ p, ¬Active sem pc p) (hn : ∀ p, pc p ≠ .downOf .next)
  | held (p : π) (hv : (sem .mutex).value = 0) (h : ∀ q, Active sem pc q ↔ q = p)

/-- The counter that a process is in: `next_count`, or that of a condition variable. -/
def counterOf : Pc κ → Option (Option κ)
  | .downOf .next => some none
  | .downOf (.cv c) => some (some c)
  | .outside | .inside | .downOf .mutex => none

/-- The counters of the monitor. -/
def Counted (pc : π → Pc κ) (nextCount : ℤ) (count : κ → ℤ) : Prop :=
  ∃ cnt : Option κ → ℕ, Counts (fun p => counterOf (pc p)) cnt ∧ nextCount = cnt none ∧
    ∀ c, count c = cnt (some c)

/-- The queue of a condition variable is in the order of the calls of `cond_wait`. -/
structure InOrder (sem : Place κ → Semaphore π) (since : π → ℕ) (time : ℕ) : Prop where
  pairwise : ∀ c, (sem (.cv c)).waitQueue.Pairwise fun a b => since a < since b
  past : ∀ c, ∀ p ∈ (sem (.cv c)).waitQueue, since p < time

structure MonitorOk (s : State π κ) : Prop where
  queues : Queues s.sem s.pc
  token : Token s.sem s.pc
  counted : Counted s.pc s.nextCount s.count
  inOrder : InOrder s.sem s.since s.time

variable {nextCount : ℤ} {count : κ → ℤ}

theorem counterOf_next : counterOf (pc p) = some none ↔ pc p = .downOf .next := by
  cases hpc : pc p with
  | outside => exact iff_of_false nofun nofun
  | inside => exact iff_of_false nofun nofun
  | downOf l =>
    cases l with
    | mutex => exact iff_of_false nofun nofun
    | next => exact iff_of_true rfl rfl
    | cv c => exact iff_of_false nofun nofun

theorem counterOf_cv : counterOf (pc p) = some (some c) ↔ pc p = .downOf (.cv c) := by
  cases hpc : pc p with
  | outside => exact iff_of_false nofun nofun
  | inside => exact iff_of_false nofun nofun
  | downOf l =>
    cases l with
    | mutex => exact iff_of_false nofun nofun
    | next => exact iff_of_false nofun nofun
    | cv c' =>
      show some (some c') = some (some c) ↔ Pc.downOf (.cv c') = Pc.downOf (.cv c)
      rw [Option.some.injEq, Option.some.injEq, Pc.downOf.injEq, Place.cv.injEq]

/-- `next_count` is positive exactly if a process is in `cond_signal`. -/
theorem Counted.next_pos (h : Counted pc nextCount count) :
    0 < nextCount ↔ ∃ p, pc p = .downOf .next := by
  obtain ⟨cnt, hcnt, hnext, -⟩ := h
  constructor
  · intro hpos
    by_contra hnone
    have hzero : (keysOf (fun p => counterOf (pc p)) none).encard = 0 := by
      rw [Set.encard_eq_zero]
      apply Set.eq_empty_of_forall_notMem
      intro p hp
      exact hnone ⟨p, counterOf_next.mp hp⟩
    rw [hcnt none] at hzero
    have hzero' : cnt none = 0 := by exact_mod_cast hzero
    omega
  · rintro ⟨p, hp⟩
    have hpos := hcnt.pos (k := p) (counterOf_next.mpr hp)
    omega

theorem Counted.cv_pos (h : Counted pc nextCount count) :
    0 < count c ↔ ∃ p, pc p = .downOf (.cv c) := by
  obtain ⟨cnt, hcnt, -, hcv⟩ := h
  have hc := hcv c
  constructor
  · intro hpos
    by_contra hnone
    have hzero : (keysOf (fun p => counterOf (pc p)) (some c)).encard = 0 := by
      rw [Set.encard_eq_zero]
      apply Set.eq_empty_of_forall_notMem
      intro p hp
      exact hnone ⟨p, counterOf_cv.mp hp⟩
    rw [hcnt (some c)] at hzero
    have hzero' : cnt (some c) = 0 := by exact_mod_cast hzero
    omega
  · rintro ⟨p, hp⟩
    have hpos := hcnt.pos (k := p) (counterOf_cv.mpr hp)
    omega

variable [DecidableEq π] [DecidableEq κ]

omit [DecidableEq κ] in
/-- A move between places without a counter. -/
theorem Counted.same (h : Counted pc nextCount count) {c' : Pc κ} (hp : counterOf (pc p) = none)
    (hc : counterOf c' = none) : Counted (update pc p c') nextCount count := by
  have hsame : (fun q => counterOf (update pc p c' q)) = fun q => counterOf (pc q) := by
    funext q
    by_cases hqp : q = p
    · rw [hqp, update_self, hp, hc]
    · rw [update_of_ne hqp]
  unfold Counted
  rw [hsame]
  exact h

omit [DecidableEq κ] in
theorem counterOf_update {c' : Pc κ} : (fun q => counterOf (update pc p c' q))
    = update (fun q => counterOf (pc q)) p (counterOf c') := by
  funext q
  by_cases hqp : q = p
  · rw [hqp, update_self, update_self]
  · rw [update_of_ne hqp, update_of_ne hqp]

/-- A process goes to `down` in `cond_signal`. -/
theorem Counted.addNext (h : Counted pc nextCount count) (hp : counterOf (pc p) = none) :
    Counted (update pc p (.downOf .next)) (nextCount + 1) count := by
  obtain ⟨cnt, hcnt, hnext, hcv⟩ := h
  refine ⟨update cnt none (cnt none + 1), ?_, ?_, ?_⟩
  · rw [counterOf_update]
    exact hcnt.add hp
  · rw [update_self, hnext]
    rfl
  · intro c
    rw [update_of_ne (Option.some_ne_none c)]
    exact hcv c

theorem Counted.dropNext (h : Counted pc nextCount count) (hp : pc p = .downOf .next) :
    Counted (update pc p .inside) (nextCount - 1) count := by
  obtain ⟨cnt, hcnt, hnext, hcv⟩ := h
  have hkey := counterOf_next.mpr hp
  have hpos := hcnt.pos (k := p) hkey
  refine ⟨update cnt none (cnt none - 1), ?_, ?_, ?_⟩
  · rw [counterOf_update]
    exact hcnt.drop hkey
  · rw [update_self, hnext]
    omega
  · intro c
    rw [update_of_ne (Option.some_ne_none c)]
    exact hcv c

/-- A process goes to `down` in `cond_wait`. -/
theorem Counted.addCv (h : Counted pc nextCount count) (hp : counterOf (pc p) = none) :
    Counted (update pc p (.downOf (.cv c))) nextCount (update count c (count c + 1)) := by
  obtain ⟨cnt, hcnt, hnext, hcv⟩ := h
  refine ⟨update cnt (some c) (cnt (some c) + 1), ?_, ?_, ?_⟩
  · rw [counterOf_update]
    exact hcnt.add hp
  · rw [update_of_ne (Option.some_ne_none c).symm]
    exact hnext
  · intro c'
    by_cases hc : c' = c
    · rw [hc, update_self, update_self, hcv c]
      rfl
    · rw [update_of_ne hc, update_of_ne (fun he => hc (Option.some.inj he))]
      exact hcv c'

theorem Counted.dropCv (h : Counted pc nextCount count) (hp : pc p = .downOf (.cv c)) :
    Counted (update pc p .inside) nextCount (update count c (count c - 1)) := by
  obtain ⟨cnt, hcnt, hnext, hcv⟩ := h
  have hkey := counterOf_cv.mpr hp
  have hpos := hcnt.pos (k := p) hkey
  refine ⟨update cnt (some c) (cnt (some c) - 1), ?_, ?_, ?_⟩
  · rw [counterOf_update]
    exact hcnt.drop hkey
  · rw [update_of_ne (Option.some_ne_none c).symm]
    exact hnext
  · intro c'
    by_cases hc : c' = c
    · rw [hc, update_self, update_self, hcv c]
      omega
    · rw [update_of_ne hc, update_of_ne (fun he => hc (Option.some.inj he))]
      exact hcv c'

/-! ### Handing on the token -/

/-- What the exit code of the active process `p` makes of the token: it is in `mutex` again, or a
process `w` has been woken with it. -/
inductive Handed (p : π) (pc : π → Pc κ) (sem : Place κ → Semaphore π) : Prop
  | free (hv : (sem .mutex).value = 1) (hq : (sem .mutex).waitQueue = [])
      (h : ∀ q, Active sem pc q ↔ q = p) (hn : ∀ q, pc q ≠ .downOf .next)
  | woken (w : π) (hw : w ≠ p) (hv : (sem .mutex).value = 0)
      (h : ∀ q, Active sem pc q ↔ q = p ∨ q = w)

omit [DecidableEq π] [DecidableEq κ] in
/-- The process that has handed on the token stops being active. -/
theorem Handed.token {sem' : Place κ → Semaphore π} {pc' : π → Pc κ} (h : Handed p pc sem)
    (hmutex : sem' .mutex = sem .mutex)
    (hactive : ∀ q, Active sem' pc' q ↔ Active sem pc q ∧ q ≠ p)
    (hnext : ∀ q, pc' q = .downOf .next → pc q = .downOf .next) : Token sem' pc' := by
  cases h with
  | free hv hq h hn =>
    apply Token.free
    · rw [hmutex, hv]
    · rw [hmutex, hq]
    · intro q hq'
      obtain ⟨hold, hne⟩ := (hactive q).mp hq'
      exact hne ((h q).mp hold)
    · exact fun q hq' => hn q (hnext q hq')
  | woken w hw hv h =>
    apply Token.held w
    · rw [hmutex, hv]
    · intro q
      rw [hactive, h]
      constructor
      · rintro ⟨hqp | hqw, hne⟩
        · exact absurd hqp hne
        · exact hqw
      · intro hqw
        exact ⟨Or.inr hqw, hqw ▸ hw⟩

omit [DecidableEq π] in
/-- `up` of a semaphore with sleepers, by the active process `p`. -/
theorem Queues.handed (h : Queues sem pc) (hv : (sem .mutex).value = 0)
    (hactive : ∀ q, Active sem pc q ↔ q = p) (hq : (sem l).waitQueue = w :: rest) :
    Queues (update sem l (sem l).up) pc ∧ Handed p pc (update sem l (sem l).up) := by
  obtain ⟨hup, hact⟩ := h.up hq
  have hmem : w ∈ (sem l).waitQueue := by
    rw [hq]
    exact List.mem_cons_self
  refine ⟨hup, .woken w ?_ ?_ ?_⟩
  · intro hwp
    exact h.not_active hmem ((hactive w).mpr hwp)
  · by_cases hl : Place.mutex = l
    · rw [← hl, update_self, up_cons (hl ▸ hq)]
      exact hv
    · rw [update_of_ne hl]
      exact hv
  · intro q
    rw [hact, hactive]

omit [DecidableEq π] in
theorem release_spec {s : State π κ} (h : Queues s.sem s.pc) (hv : (s.sem .mutex).value = 0)
    (hactive : ∀ q, Active s.sem s.pc q ↔ q = p) (hp : s.pc p = .inside)
    (hnext : 0 < s.nextCount ↔ ∃ q, s.pc q = .downOf .next) :
    Queues s.release.sem s.pc ∧ Handed p s.pc s.release.sem ∧
      (∀ c, s.release.sem (.cv c) = s.sem (.cv c)) := by
  unfold State.release
  split
  case isTrue hpos =>
    -- somebody is in `cond_signal`, and asleep as only `p` is active
    obtain ⟨q, hq⟩ := hnext.mp hpos
    have hmem : q ∈ (s.sem .next).waitQueue := by
      apply mem_of_not_active hq
      intro hact
      rw [(hactive q).mp hact, hp] at hq
      exact nomatch hq
    cases hlist : (s.sem .next).waitQueue with
    | nil =>
      rw [hlist] at hmem
      exact absurd hmem List.not_mem_nil
    | cons w rest =>
      obtain ⟨hqueues, hhanded⟩ := h.handed hv hactive hlist
      exact ⟨hqueues, hhanded, fun c => State.up_sem_of_ne .next (.cv c) nofun s⟩
  case isFalse hpos =>
    cases hlist : (s.sem .mutex).waitQueue with
    | cons w rest =>
      obtain ⟨hqueues, hhanded⟩ := h.handed hv hactive hlist
      exact ⟨hqueues, hhanded, fun c => State.up_sem_of_ne .mutex (.cv c) nofun s⟩
    | nil =>
      have hqueue : ∀ l, (update s.sem .mutex (s.sem .mutex).up l).waitQueue
          = (s.sem l).waitQueue := by
        intro l
        by_cases hl : l = .mutex
        · rw [hl, update_self, up_nil hlist, hlist]
        · rw [update_of_ne hl]
      refine ⟨⟨?_, ?_, ?_⟩, .free ?_ ?_ ?_ fun q hq => hpos (hnext.mpr ⟨q, hq⟩),
        fun c => State.up_sem_of_ne .mutex (.cv c) nofun s⟩
      · intro l
        show (update s.sem .mutex (s.sem .mutex).up l).waitQueue.Nodup
        rw [hqueue]
        exact h.nodup l
      · intro l q hq
        have hmem : q ∈ (update s.sem .mutex (s.sem .mutex).up l).waitQueue := hq
        rw [hqueue] at hmem
        exact h.mem l q hmem
      · intro l hl
        show (update s.sem .mutex (s.sem .mutex).up l).value = 0
        rw [update_of_ne hl]
        exact h.zero l hl
      · show (update s.sem .mutex (s.sem .mutex).up .mutex).value = 1
        rw [update_self, up_nil hlist, hv]
        rfl
      · show (update s.sem .mutex (s.sem .mutex).up .mutex).waitQueue = []
        rw [hqueue, hlist]
      · intro q
        rw [← hactive q]
        apply or_congr Iff.rfl
        apply exists_congr
        intro l
        apply and_congr Iff.rfl
        show q ∉ (update s.sem .mutex (s.sem .mutex).up l).waitQueue ↔ _
        rw [hqueue]

omit [DecidableEq π] in
theorem release_eq (s : State π κ) : s.release = { s with sem := s.release.sem } := by
  unfold State.release
  split <;> rfl

/-! ### Steps -/

variable {s s' : State π κ}

omit [DecidableEq π] [DecidableEq κ] in
/-- A process that runs in the monitor has the token. -/
theorem MonitorOk.inside (h : MonitorOk s) (hp : s.pc p = .inside) :
    (s.sem .mutex).value = 0 ∧ ∀ q, Active s.sem s.pc q ↔ q = p := by
  have hactive : Active s.sem s.pc p := Or.inl hp
  cases h.token with
  | free hv hq hnone hn => exact absurd hactive (hnone p)
  | held w hv hw =>
    have hpw := (hw p).mp hactive
    refine ⟨hv, fun q => ?_⟩
    rw [hw, hpw]

omit [DecidableEq π] [DecidableEq κ] in
theorem not_waiting (h : Queues s.sem s.pc) (hp : ∀ l, s.pc p ≠ .downOf l) (l : Place κ) :
    p ∉ (s.sem l).waitQueue := fun hmem => hp l (h.mem l p hmem)

theorem MonitorOk.enter (h : MonitorOk s) (hp : s.pc p = .outside) : MonitorOk (s.enter p) := by
  have hdown : ∀ l, s.pc p ≠ .downOf l := by
    intro l
    rw [hp]
    exact nofun
  have hcounter : counterOf (s.pc p) = none := by
    rw [hp]
    rfl
  have hpassive : ¬Active s.sem s.pc p := by
    rintro (hin | ⟨l, hl, -⟩)
    · exact nomatch hp.symm.trans hin
    · exact hdown l hl
  have hcv : ∀ c, (s.enter p).sem (.cv c) = s.sem (.cv c) :=
    fun c => State.callDown_sem_of_ne .mutex (.cv c) nofun p s
  have hcounted : Counted (s.enter p).pc s.nextCount s.count := h.counted.same hcounter rfl
  have hinOrder : InOrder (s.enter p).sem s.since s.time := by
    constructor
    · intro c
      rw [hcv]
      exact h.inOrder.pairwise c
    · intro c
      rw [hcv]
      exact h.inOrder.past c
  have hnext : ∀ q, (s.enter p).pc q = .downOf .next → s.pc q = .downOf .next := by
    intro q hq
    have hq' : update s.pc p (.downOf .mutex) q = .downOf .next := hq
    by_cases hqp : q = p
    · rw [hqp, update_self] at hq'
      exact nomatch hq'
    · rw [update_of_ne hqp] at hq'
      exact hq'
  cases h.token with
  | held w hv hw =>
    obtain ⟨hqueues, hactive⟩ := h.queues.sleep hdown (l := .mutex) (by rw [hv]; exact lt_irrefl 0)
    refine ⟨hqueues, .held w ?_ ?_, hcounted, hinOrder⟩
    · show (update s.sem .mutex ((s.sem .mutex).down p) .mutex).value = 0
      rw [update_self, down_wait (by rw [hv]; exact lt_irrefl 0)]
      exact hv
    · intro q
      refine (hactive q).trans ?_
      rw [hw]
      refine and_iff_left_of_imp ?_
      intro hqw hqp
      exact hpassive ((hw p).mpr (hqp ▸ hqw))
  | free hv hq hnone hn =>
    have hdownEq : (s.sem .mutex).down p = ⟨0, []⟩ := by
      unfold Semaphore.down
      rw [if_pos (by rw [hv]; exact one_pos), hv, hq]
      rfl
    have hqueue : ∀ l, ((s.enter p).sem l).waitQueue = (s.sem l).waitQueue := by
      intro l
      show (update s.sem .mutex ((s.sem .mutex).down p) l).waitQueue = _
      by_cases hl : l = .mutex
      · rw [hl, update_self, hdownEq, hq]
      · rw [update_of_ne hl]
    refine ⟨⟨?_, ?_, ?_⟩, .held p ?_ ?_, hcounted, hinOrder⟩
    · intro l
      rw [hqueue]
      exact h.queues.nodup l
    · intro l q hmem
      rw [hqueue] at hmem
      have hqp : q ≠ p := fun hqp => not_waiting h.queues hdown l (hqp ▸ hmem)
      show update s.pc p _ q = _
      rw [update_of_ne hqp]
      exact h.queues.mem l q hmem
    · intro l hl
      show (update s.sem .mutex ((s.sem .mutex).down p) l).value = 0
      rw [update_of_ne hl]
      exact h.queues.zero l hl
    · show (update s.sem .mutex ((s.sem .mutex).down p) .mutex).value = 0
      rw [update_self, hdownEq]
    · intro q
      constructor
      · intro hact
        by_contra hqp
        apply hnone q
        rcases hact with hin | ⟨l, hl, hnot⟩
        · have hin' : update s.pc p (.downOf .mutex) q = .inside := hin
          rw [update_of_ne hqp] at hin'
          exact Or.inl hin'
        · have hl' : update s.pc p (.downOf .mutex) q = .downOf l := hl
          rw [update_of_ne hqp] at hl'
          rw [hqueue] at hnot
          exact Or.inr ⟨l, hl', hnot⟩
      · intro hqp
        refine Or.inr ⟨.mutex, ?_, ?_⟩
        · rw [hqp]
          exact update_self _ _ _
        · rw [hqueue, hq]
          exact List.not_mem_nil

theorem MonitorOk.leave (h : MonitorOk s) (hp : s.pc p = .inside) : MonitorOk (s.leave p) := by
  obtain ⟨hv, hactive⟩ := h.inside hp
  obtain ⟨hqueues, hhanded, hcv⟩ := release_spec h.queues hv hactive hp h.counted.next_pos
  have hdown : ∀ l, s.pc p ≠ .downOf l := by
    intro l
    rw [hp]
    exact nofun
  unfold State.leave
  rw [release_eq]
  constructor
  · exact hqueues.goto (fun l hmem => hdown l (hqueues.mem l p hmem)) .outside
  · apply hhanded.token rfl
    · exact fun q => active_goto_outside
    · intro q hq
      have hq' : update s.pc p .outside q = .downOf .next := hq
      by_cases hqp : q = p
      · rw [hqp, update_self] at hq'
        exact nomatch hq'
      · rw [update_of_ne hqp] at hq'
        exact hq'
  · exact h.counted.same (by rw [hp]; rfl) rfl
  · constructor
    · intro c
      show (s.release.sem (.cv c)).waitQueue.Pairwise _
      rw [hcv]
      exact h.inOrder.pairwise c
    · intro c q hq
      have hq' : q ∈ (s.release.sem (.cv c)).waitQueue := hq
      rw [hcv] at hq'
      exact h.inOrder.past c q hq'

theorem MonitorOk.condWait (h : MonitorOk s) (hp : s.pc p = .inside) (c : κ) :
    MonitorOk (s.condWait p c) := by
  obtain ⟨hv, hactive⟩ := h.inside hp
  have hdown : ∀ l, s.pc p ≠ .downOf l := by
    intro l
    rw [hp]
    exact nofun
  unfold State.condWait
  generalize hs₁ : ({ s with
    count := update s.count c (s.count c + 1)
    since := update s.since p s.time
    time := s.time + 1 } : State π κ) = s₁
  have hsem : s₁.sem = s.sem := by rw [← hs₁]
  have hpc : s₁.pc = s.pc := by rw [← hs₁]
  have hnextCount : s₁.nextCount = s.nextCount := by rw [← hs₁]
  have hcount : s₁.count = update s.count c (s.count c + 1) := by rw [← hs₁]
  have hsince : s₁.since = update s.since p s.time := by rw [← hs₁]
  have htime : s₁.time = s.time + 1 := by rw [← hs₁]
  obtain ⟨hqueues, hhanded, hcv⟩ := release_spec (s := s₁) (p := p) (by rw [hsem, hpc]; exact h.queues)
    (by rw [hsem]; exact hv) (by rw [hsem, hpc]; exact hactive) (by rw [hpc]; exact hp)
    (by rw [hnextCount, hpc]; exact h.counted.next_pos)
  rw [hpc] at hqueues hhanded
  show MonitorOk (s₁.release.callDown p (.cv c))
  rw [release_eq]
  obtain ⟨hsleep, hact⟩ := hqueues.sleep hdown (l := .cv c)
    (by rw [hqueues.zero (.cv c) nofun]; exact lt_irrefl 0)
  have hother : ∀ l, l ≠ .cv c →
      update s₁.release.sem (.cv c) ((s₁.release.sem (.cv c)).down p) l = s₁.release.sem l :=
    fun l hl => update_of_ne hl _ _
  -- the queue that the process joins
  have hjoined : ((s₁.release.sem (.cv c)).down p).waitQueue
      = (s.sem (.cv c)).waitQueue ++ [p] := by
    rw [down_wait (by rw [hqueues.zero (.cv c) nofun]; exact lt_irrefl 0), hcv, hsem]
  have hold : ∀ c', ∀ q ∈ (s.sem (.cv c')).waitQueue, s₁.since q = s.since q := by
    intro c' q hq
    have hqp : q ≠ p := fun hqp => not_waiting h.queues hdown _ (hqp ▸ hq)
    rw [hsince, update_of_ne hqp]
  have hself : s₁.since p = s.time := by rw [hsince, update_self]
  constructor
  · show Queues (update s₁.release.sem (.cv c) _) (update s₁.pc p _)
    rw [hpc]
    exact hsleep
  · show Token (update s₁.release.sem (.cv c) _) (update s₁.pc p _)
    rw [hpc]
    apply hhanded.token (hother .mutex nofun) hact
    intro q hq
    by_cases hqp : q = p
    · rw [hqp, update_self] at hq
      exact nomatch hq
    · rw [update_of_ne hqp] at hq
      exact hq
  · show Counted (update s₁.pc p (.downOf (.cv c))) s₁.nextCount s₁.count
    rw [hpc, hnextCount, hcount]
    exact h.counted.addCv (by rw [hp]; rfl)
  · constructor
    · intro c'
      show (update s₁.release.sem (.cv c) ((s₁.release.sem (.cv c)).down p)
        (.cv c')).waitQueue.Pairwise fun a b => s₁.since a < s₁.since b
      by_cases hc : c' = c
      · rw [hc, update_self, hjoined, List.pairwise_append]
        refine ⟨?_, List.pairwise_singleton _ _, ?_⟩
        · apply (h.inOrder.pairwise c).imp_of_mem
          intro a b ha hb hab
          rw [hold c a ha, hold c b hb]
          exact hab
        · intro a ha b hb
          rw [List.mem_singleton.mp hb, hold c a ha, hself]
          exact h.inOrder.past c a ha
      · rw [hother _ (fun he => hc (Place.cv.inj he)), hcv, hsem]
        apply (h.inOrder.pairwise c').imp_of_mem
        intro a b ha hb hab
        rw [hold c' a ha, hold c' b hb]
        exact hab
    · intro c' q hq
      have hq' : q ∈ (update s₁.release.sem (.cv c) ((s₁.release.sem (.cv c)).down p)
        (.cv c')).waitQueue := hq
      show s₁.since q < s₁.time
      rw [htime]
      have hmem : q ∈ (s.sem (.cv c')).waitQueue ∨ q = p := by
        by_cases hc : c' = c
        · rw [hc, update_self, hjoined, List.mem_append, List.mem_singleton] at hq'
          rw [hc]
          exact hq'
        · rw [hother _ (fun he => hc (Place.cv.inj he)), hcv, hsem] at hq'
          exact Or.inl hq'
      rcases hmem with hmem | hqp
      · rw [hold c' q hmem]
        exact Nat.lt_succ_of_lt (h.inOrder.past c' q hmem)
      · rw [hqp, hself]
        exact Nat.lt_succ_self _

/-- `cond_signal` of a condition variable with waiters: the first of them is the only active
process. -/
theorem MonitorOk.condSignal (h : MonitorOk s) (hp : s.pc p = .inside)
    (hq : (s.sem (.cv c)).waitQueue = w :: rest) (hcount : 0 < s.count c) :
    MonitorOk (s.condSignal p c) ∧
      ∀ q, Active (s.condSignal p c).sem (s.condSignal p c).pc q ↔ q = w := by
  obtain ⟨hv, hactive⟩ := h.inside hp
  have hdown : ∀ l, s.pc p ≠ .downOf l := by
    intro l
    rw [hp]
    exact nofun
  unfold State.condSignal
  rw [if_pos hcount]
  obtain ⟨hup, hact⟩ := h.queues.up hq
  have hzero : (update s.sem (.cv c) (s.sem (.cv c)).up .next).value = 0 := hup.zero .next nofun
  obtain ⟨hsleep, hact'⟩ := hup.sleep hdown (l := .next) (by rw [hzero]; exact lt_irrefl 0)
  have hwp : w ≠ p := by
    intro hwp
    apply not_waiting h.queues hdown (.cv c)
    rw [hq, ← hwp]
    exact List.mem_cons_self
  have honly : ∀ q, Active (update (update s.sem (.cv c) (s.sem (.cv c)).up) .next
      ((update s.sem (.cv c) (s.sem (.cv c)).up .next).down p)) (update s.pc p (.downOf .next)) q ↔
      q = w := by
    intro q
    rw [hact', hact, hactive]
    constructor
    · rintro ⟨hqp | hqw, hne⟩
      · exact absurd hqp hne
      · exact hqw
    · intro hqw
      exact ⟨Or.inr hqw, hqw ▸ hwp⟩
  have hqueue : ∀ c', List.Sublist (update (update s.sem (.cv c) (s.sem (.cv c)).up) .next
      ((update s.sem (.cv c) (s.sem (.cv c)).up .next).down p) (.cv c')).waitQueue
      (s.sem (.cv c')).waitQueue := by
    intro c'
    rw [update_of_ne (show Place.cv c' ≠ .next by exact nofun)]
    by_cases hc : c' = c
    · rw [hc, update_self, up_cons hq, hq]
      exact List.sublist_cons_self w rest
    · rw [update_of_ne (fun he => hc (Place.cv.inj he))]
  have hmutex : update (update s.sem (.cv c) (s.sem (.cv c)).up) .next
      ((update s.sem (.cv c) (s.sem (.cv c)).up .next).down p) .mutex = s.sem .mutex := by
    rw [update_of_ne (show Place.mutex ≠ .next by exact nofun),
      update_of_ne (show Place.mutex ≠ .cv c by exact nofun)]
  refine ⟨⟨hsleep, .held w ?_ honly, h.counted.addNext (by rw [hp]; rfl), ?_, ?_⟩, honly⟩
  · exact (congrArg Semaphore.value hmutex).trans hv
  · exact fun c' => (h.inOrder.pairwise c').sublist (hqueue c')
  · exact fun c' q hmem => h.inOrder.past c' q ((hqueue c').subset hmem)

theorem MonitorOk.resume (h : MonitorOk s) (hp : s.pc p = .downOf l)
    (hawake : p ∉ (s.sem l).waitQueue) : MonitorOk (s.resume p l) := by
  have hactive : Active s.sem s.pc p := Or.inr ⟨l, hp, hawake⟩
  have hnot : ∀ l', p ∉ (s.sem l').waitQueue := by
    intro l' hmem
    exact h.queues.not_active hmem hactive
  have hqueues := h.queues.goto hnot .inside
  have htoken : Token s.sem (update s.pc p .inside) := by
    cases h.token with
    | free hv hq hnone hn => exact absurd hactive (hnone p)
    | held w hv hw =>
      apply Token.held w hv
      intro q
      rw [active_goto_inside, hw]
      apply or_iff_left_of_imp
      intro hqp
      rw [hqp]
      exact (hw p).mp hactive
  cases l with
  | mutex => exact ⟨hqueues, htoken, h.counted.same (by rw [hp]; rfl) rfl, h.inOrder⟩
  | next => exact ⟨hqueues, htoken, h.counted.dropNext hp, h.inOrder⟩
  | cv c => exact ⟨hqueues, htoken, h.counted.dropCv hp, h.inOrder⟩

/-! ### Runs -/

omit [DecidableEq π] [DecidableEq κ] in
/-- A waiting process is in the queue while another one runs in the monitor. -/
theorem MonitorOk.queue_of_waiting (h : MonitorOk s) (hp : s.pc p = .inside)
    (hq : s.pc q = .downOf l) : q ∈ (s.sem l).waitQueue := by
  apply mem_of_not_active hq
  intro hact
  rw [((h.inside hp).2 q).mp hact, hp] at hq
  exact nomatch hq

theorem condSignal_of_none (hcount : ¬0 < s.count c) : s.condSignal p c = s := by
  unfold State.condSignal
  rw [if_neg hcount]

theorem MonitorOk.step (h : MonitorOk s) (hstep : Step p s s') : MonitorOk s' := by
  cases hstep with
  | enter hpc => exact h.enter hpc
  | leave hpc => exact h.leave hpc
  | condWait c hpc => exact h.condWait hpc c
  | resume l hpc hawake => exact h.resume hpc hawake
  | condSignal c hpc =>
    by_cases hcount : 0 < s.count c
    · obtain ⟨q, hq⟩ := h.counted.cv_pos.mp hcount
      have hmem := h.queue_of_waiting hpc hq
      cases hlist : (s.sem (.cv c)).waitQueue with
      | nil =>
        rw [hlist] at hmem
        exact absurd hmem List.not_mem_nil
      | cons w rest => exact (h.condSignal hpc hlist hcount).1
    · rw [condSignal_of_none hcount]
      exact h

omit [DecidableEq π] [DecidableEq κ] in
theorem monitorOk_init : MonitorOk (State.init : State π κ) := by
  have hqueue : ∀ l, ((State.init : State π κ).sem l).waitQueue = [] := by
    intro l
    cases l <;> rfl
  constructor
  · constructor
    · intro l
      rw [hqueue]
      exact List.nodup_nil
    · intro l p hmem
      rw [hqueue] at hmem
      exact absurd hmem List.not_mem_nil
    · intro l hl
      cases l with
      | mutex => exact absurd rfl hl
      | next => rfl
      | cv c => rfl
  · apply Token.free rfl rfl
    · rintro p (hin | ⟨l, hl, -⟩)
      · exact nomatch hin
      · exact nomatch hl
    · exact fun p => nofun
  · refine ⟨fun _ => 0, fun f => ?_, rfl, fun _ => rfl⟩
    rw [Set.encard_eq_zero.mpr]
    · rfl
    · exact Set.eq_empty_of_forall_notMem fun p hp => nomatch hp
  · constructor
    · intro c
      rw [hqueue]
      exact List.Pairwise.nil
    · intro c p hmem
      rw [hqueue] at hmem
      exact absurd hmem List.not_mem_nil

theorem monitorOk_run (hrun : ReflTransGen Next State.init s) : MonitorOk s := by
  apply Transition.invariant _ hrun monitorOk_init
  rintro a b ha ⟨p, hstep⟩
  exact ha.step hstep

/-- A step of another process than `w`. -/
def Others (w : π) (s s' : State π κ) : Prop := ∃ q, q ≠ w ∧ Step q s s'

/-- While `w` has the token and does not go on, the other processes only ask for `mutex`. -/
theorem MonitorOk.others_outside (h : MonitorOk s) (hw : Active s.sem s.pc w) (hqw : q ≠ w)
    (hstep : Step q s s') : s.pc q = .outside := by
  have hpassive : ¬Active s.sem s.pc q := by
    intro hq
    cases h.token with
    | free hv hlist hnone hn => exact hnone q hq
    | held p hv hp => exact hqw (((hp q).mp hq).trans ((hp w).mp hw).symm)
  cases hstep with
  | enter hpc => exact hpc
  | leave hpc => exact absurd (Or.inl hpc) hpassive
  | condWait c hpc => exact absurd (Or.inl hpc) hpassive
  | condSignal c hpc => exact absurd (Or.inl hpc) hpassive
  | resume l hpc hawake => exact absurd (Or.inr ⟨l, hpc, hawake⟩) hpassive

/-- So `w` keeps the token. -/
theorem MonitorOk.others (h : MonitorOk s) (hw : Active s.sem s.pc w) (hwait : s.pc w = .downOf l)
    (hrun : ReflTransGen (Others w) s s') :
    MonitorOk s' ∧ Active s'.sem s'.pc w ∧ s'.pc w = .downOf l := by
  induction hrun with
  | refl => exact ⟨h, hw, hwait⟩
  | @tail s₁ s₂ _ hstep ih =>
    obtain ⟨hok, hactive, hpc⟩ := ih
    obtain ⟨q, hqw, hstep⟩ := hstep
    have hout := hok.others_outside hactive hqw hstep
    refine ⟨hok.step hstep, ?_⟩
    cases hstep with
    | leave hin => exact nomatch hout.symm.trans hin
    | condWait c hin => exact nomatch hout.symm.trans hin
    | condSignal c hin => exact nomatch hout.symm.trans hin
    | resume l' hdown hawake => exact nomatch hout.symm.trans hdown
    | enter _ =>
      have hpc' : (s₁.enter q).pc w = s₁.pc w := update_of_ne hqw.symm _ _
      refine ⟨Or.inr ⟨l, hpc'.trans hpc, ?_⟩, hpc'.trans hpc⟩
      intro hmem
      apply hok.queues.not_active (l := l) _ hactive
      have hmem' : w ∈ (update s₁.sem .mutex ((s₁.sem .mutex).down q) l).waitQueue := hmem
      by_cases hl : l = .mutex
      · rw [hl, update_self] at hmem'
        rw [hl]
        exact (Semaphore.mem_down hmem').resolve_right hqw.symm
      · rw [update_of_ne hl] at hmem'
        exact hmem'

/-- The process runs in the monitor, is woken to do so, or sleeps in `cond_signal`. -/
def Inside (s : State π κ) (p : π) : Prop := Active s.sem s.pc p ∨ s.pc p = .downOf .next

/-- **The monitor.**  For any processes and condition variables and any interleaving: at most one
process is active; the counters count the processes in `cond_signal` and `cond_wait`; only `mutex`
ever has a token, and then nobody is inside; and a `cond_signal` with waiters gives control to the
one that has waited longest, before any other process runs in the monitor. -/
theorem monitor (hrun : ReflTransGen Next State.init s) :
    (∀ p q, Active s.sem s.pc p → Active s.sem s.pc q → p = q) ∧
    (∃ n : ℕ, s.nextCount = n ∧ {p | s.pc p = .downOf .next}.encard = n) ∧
    (∀ c, ∃ n : ℕ, s.count c = n ∧ {p | s.pc p = .downOf (.cv c)}.encard = n) ∧
    (s.sem .next).value = 0 ∧ (∀ c, (s.sem (.cv c)).value = 0) ∧
    ((s.sem .mutex).value = 0 ∨ (s.sem .mutex).value = 1 ∧ ∀ p, ¬Inside s p) ∧
    ∀ p c, s.pc p = .inside → (∃ q, s.pc q = .downOf (.cv c)) →
      ∃ w, s.pc w = .downOf (.cv c) ∧
        (∀ q, s.pc q = .downOf (.cv c) → q ≠ w → s.since w < s.since q) ∧
        ∀ s', ReflTransGen (Others w) (s.condSignal p c) s' →
          Active s'.sem s'.pc w ∧ s'.pc w = .downOf (.cv c) ∧
            ∀ q s'', q ≠ w → Step q s' s'' → s'.pc q = .outside := by
  have h := monitorOk_run hrun
  obtain ⟨cnt, hcnt, hnext, hcv⟩ := h.counted
  refine ⟨?_, ⟨cnt none, hnext, ?_⟩, fun c => ⟨cnt (some c), hcv c, ?_⟩,
    h.queues.zero .next nofun, fun c => h.queues.zero (.cv c) nofun, ?_, ?_⟩
  · intro p q hp hq
    cases h.token with
    | free hv hlist hnone hn => exact absurd hp (hnone p)
    | held w hv hw => exact ((hw p).mp hp).trans ((hw q).mp hq).symm
  · rw [← hcnt none]
    congr 1
    ext p
    exact counterOf_next.symm
  · rw [← hcnt (some c)]
    congr 1
    ext p
    exact counterOf_cv.symm
  · cases h.token with
    | held w hv hw => exact Or.inl hv
    | free hv hlist hnone hn =>
      right
      refine ⟨hv, ?_⟩
      rintro p (hp | hp)
      · exact hnone p hp
      · exact hn p hp
  · rintro p c hp ⟨q, hq⟩
    have hmem := h.queue_of_waiting hp hq
    cases hlist : (s.sem (.cv c)).waitQueue with
    | nil =>
      rw [hlist] at hmem
      exact absurd hmem List.not_mem_nil
    | cons w rest =>
      have hw : s.pc w = .downOf (.cv c) := by
        apply h.queues.mem (.cv c) w
        rw [hlist]
        exact List.mem_cons_self
      refine ⟨w, hw, ?_, ?_⟩
      · intro q' hq' hne
        have hmem' := h.queue_of_waiting hp hq'
        rw [hlist] at hmem'
        have hpair := h.inOrder.pairwise c
        rw [hlist] at hpair
        exact (List.pairwise_cons.mp hpair).1 q' ((List.mem_cons.mp hmem').resolve_left hne)
      · intro s' hrun'
        have hcount := h.counted.cv_pos.mpr ⟨q, hq⟩
        obtain ⟨hok, hactive⟩ := h.condSignal hp hlist hcount
        have hwp : w ≠ p := by
          intro hwp
          rw [hwp, hp] at hw
          exact nomatch hw
        have hwait : (s.condSignal p c).pc w = .downOf (.cv c) := by
          unfold State.condSignal
          rw [if_pos hcount]
          exact (update_of_ne hwp _ _).trans hw
        obtain ⟨hok', hactive', hpc'⟩ := hok.others ((hactive w).mpr rfl) hwait hrun'
        exact ⟨hactive', hpc', fun q' s'' hne hstep => hok'.others_outside hactive' hne hstep⟩

/-- One process waits on a condition variable, another is in the monitor. -/
theorem monitor_waiting : ∃ s : State Bool Unit,
    s.pc false = .inside ∧ s.pc true = .downOf (.cv ()) ∧
      ∀ p q, Active s.sem s.pc p → Active s.sem s.pc q → p = q := by
  have hrun : ReflTransGen Next (State.init : State Bool Unit) _ :=
    ((((ReflTransGen.single ⟨true, .enter rfl⟩).tail
      ⟨true, .resume .mutex rfl List.not_mem_nil⟩).tail ⟨true, .condWait () rfl⟩).tail
      ⟨false, .enter rfl⟩).tail ⟨false, .resume .mutex rfl List.not_mem_nil⟩
  refine ⟨_, ?_, ?_, (monitor hrun).1⟩
  · rfl
  · rfl

end Ucore.Monitor
