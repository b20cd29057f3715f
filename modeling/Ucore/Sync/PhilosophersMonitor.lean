import Ucore.Sync.MonitorRuns
import Ucore.Sync.Philosophers

/-!
# The dining philosophers with a monitor (`lab8/kern/sync/check_sync.c`)

The philosophers run in the monitor `mt`.  In `cond_signal` a philosopher may block between its two
tests, and the one that it has woken up runs first; until then the neighbour on its right may be hungry
between two who do not eat.

`CondBody` is the invariant while a philosopher runs in the monitor, `CondOk` the one when it blocks.
-/

namespace Ucore.Philosophers

open Function Relation Sync

/-- Where a philosopher is. -/
inductive CondPlace
  /-- it has no forks and has not asked for them -/
  | away
  /-- in `down(&mtp->mutex)` of `phi_take_forks_condvar` -/
  | takeMutex
  /-- in `cond_signal` of `phi_take_forks_condvar` -/
  | takeSignal
  /-- in `cond_wait` -/
  | takeWait
  /-- `phi_take_forks_condvar` has returned -/
  | eats
  /-- in `down(&mtp->mutex)` of `phi_put_forks_condvar` -/
  | putMutex
  /-- in `cond_signal` for the left neighbour -/
  | putLeft
  /-- in `cond_signal` for the right neighbour -/
  | putRight
  deriving DecidableEq, Repr

/-- `mt`, `state_condvar` and the processes. -/
structure Cond where
  mt : Monitor.State (Fin N) (Fin N)
  stateCondvar : Fin N → PhiState
  place : Fin N → CondPlace

namespace Cond

/-- The start of the second part of `check_sync`. -/
def init : Cond := ⟨.init, fun _ => .THINKING, fun _ => .away⟩

def goto (i : Fin N) (place : CondPlace) (d : Cond) : Cond :=
  { d with place := update d.place i place }

/-- Philosopher `i` goes on after a `down`. -/
def resume (i : Fin N) (l : Monitor.Place (Fin N)) (d : Cond) : Cond :=
  { d with mt := d.mt.resume i l }

/-- `down(&mtp->mutex)`, until it returns or sleeps. -/
def enter (i : Fin N) (d : Cond) : Cond := { d with mt := d.mt.enter i }

/-- The exit code of both routines. -/
def leave (i : Fin N) (d : Cond) : Cond := { d with mt := d.mt.leave i }

def setState (i : Fin N) (v : PhiState) (d : Cond) : Cond :=
  { d with stateCondvar := update d.stateCondvar i v }

/-- `phi_test_condvar(j)` of philosopher `i`, and whether it sleeps in `cond_signal`. -/
def phiTestCondvar (i j : Fin N) (d : Cond) : Cond × Bool :=
  if CanEat d.stateCondvar j then
    ({ d.setState j .EATING with mt := d.mt.condSignal i j }, decide (0 < d.mt.count j))
  else (d, false)

/-- `phi_take_forks_condvar` after the test. -/
def takeRest (i : Fin N) (d : Cond) : Cond :=
  if d.stateCondvar i = .HUNGRY then { d with mt := d.mt.condWait i i }.goto i .takeWait
  else (d.leave i).goto i .eats

/-- `phi_take_forks_condvar` in the monitor, until it blocks or returns. -/
def phiTakeForksCondvar (i : Fin N) (d : Cond) : Cond :=
  match (d.setState i .HUNGRY).phiTestCondvar i i with
  | (d, true) => d.goto i .takeSignal
  | (d, false) => d.takeRest i

/-- `phi_put_forks_condvar` after the first test. -/
def putRest (i : Fin N) (d : Cond) : Cond :=
  match d.phiTestCondvar i (RIGHT i) with
  | (d, true) => d.goto i .putRight
  | (d, false) => (d.leave i).goto i .away

/-- `phi_put_forks_condvar` in the monitor, until it blocks or returns. -/
def phiPutForksCondvar (i : Fin N) (d : Cond) : Cond :=
  match (d.setState i .THINKING).phiTestCondvar i (LEFT i) with
  | (d, true) => d.goto i .putLeft
  | (d, false) => d.putRest i

/-- It is not in the queue of the semaphore. -/
def Awake (d : Cond) (i : Fin N) (l : Monitor.Place (Fin N)) : Prop := i ∉ (d.mt.sem l).waitQueue

instance (d : Cond) (i : Fin N) (l : Monitor.Place (Fin N)) : Decidable (d.Awake i l) :=
  inferInstanceAs (Decidable (_ ∉ _))

/-- Philosopher `i` runs until it blocks, or comes to the next call. -/
inductive Step (i : Fin N) (d : Cond) : Cond → Prop
  | take (hi : d.place i = .away) : Step i d ((d.enter i).goto i .takeMutex)
  | takeForks (hi : d.place i = .takeMutex) (hawake : d.Awake i .mutex) :
      Step i d ((d.resume i .mutex).phiTakeForksCondvar i)
  | takeSignal (hi : d.place i = .takeSignal) (hawake : d.Awake i .next) :
      Step i d ((d.resume i .next).takeRest i)
  | takeWait (hi : d.place i = .takeWait) (hawake : d.Awake i (.cv i)) :
      Step i d (((d.resume i (.cv i)).leave i).goto i .eats)
  | put (hi : d.place i = .eats) : Step i d ((d.enter i).goto i .putMutex)
  | putForks (hi : d.place i = .putMutex) (hawake : d.Awake i .mutex) :
      Step i d ((d.resume i .mutex).phiPutForksCondvar i)
  | putLeft (hi : d.place i = .putLeft) (hawake : d.Awake i .next) :
      Step i d ((d.resume i .next).putRest i)
  | putRight (hi : d.place i = .putRight) (hawake : d.Awake i .next) :
      Step i d (((d.resume i .next).leave i).goto i .away)

/-- Some philosopher takes a step. -/
def Next (d d' : Cond) : Prop := ∃ i, Step i d d'

end Cond

/-! ### The invariant -/

/-- Where the monitor sees a philosopher. -/
def CondPlace.pc (i : Fin N) : CondPlace → Monitor.Pc (Fin N)
  | .away | .eats => .outside
  | .takeMutex | .putMutex => .downOf .mutex
  | .takeSignal | .putLeft | .putRight => .downOf .next
  | .takeWait => .downOf (.cv i)

/-- The states of a philosopher at its place; nobody sleeps in `takeSignal`. -/
def Cond.Fits (d : Cond) (i : Fin N) : Prop :=
  match d.place i with
  | .away | .takeMutex | .putLeft | .putRight => d.stateCondvar i = .THINKING
  | .takeSignal => False
  | .takeWait => d.stateCondvar i = if i ∈ (d.mt.sem (.cv i)).waitQueue then .HUNGRY else .EATING
  | .eats | .putMutex => d.stateCondvar i = .EATING

structure CondOk (d : Cond) : Prop where
  mt : Monitor.MonitorOk d.mt
  pc : ∀ i, d.mt.pc i = (d.place i).pc i
  fits : ∀ i, d.Fits i
  apart : Apart d.stateCondvar
  fed : ∀ i, Fed d.stateCondvar i ∨ ∃ k, d.place k = .putLeft ∧ i = RIGHT k

/-- Philosopher `i` runs in the monitor; those of `l` may be hungry between two who do not eat. -/
structure CondBody (d : Cond) (i : Fin N) (l : List (Fin N)) : Prop where
  mt : Monitor.MonitorOk d.mt
  inside : d.mt.pc i = .inside
  pc : ∀ j, j ≠ i → d.mt.pc j = (d.place j).pc j
  fits : ∀ j, j ≠ i → d.Fits j
  apart : Apart d.stateCondvar
  fed : ∀ j, j ∉ l → Fed d.stateCondvar j ∨ ∃ k, k ≠ i ∧ d.place k = .putLeft ∧ j = RIGHT k

variable {d d' : Cond} {i j k : Fin N} {l : List (Fin N)}

theorem pc_eq_cv {place : CondPlace} (h : place.pc i = .downOf (.cv j)) : place = .takeWait ∧ i = j := by
  cases place with
  | takeWait =>
    cases h
    exact ⟨rfl, rfl⟩
  | away => cases h
  | takeMutex => cases h
  | takeSignal => cases h
  | eats => cases h
  | putMutex => cases h
  | putLeft => cases h
  | putRight => cases h

/-- A hungry philosopher waits in the queue of its condition variable. -/
theorem Cond.Fits.waits (h : d.Fits i) (hi : d.stateCondvar i = .HUNGRY) :
    d.place i = .takeWait ∧ i ∈ (d.mt.sem (.cv i)).waitQueue := by
  rw [Cond.Fits, hi] at h
  split at h
  case h_6 hplace =>
    refine ⟨hplace, ?_⟩
    by_contra hnot
    rw [if_neg hnot] at h
    cases h
  all_goals cases h

/-- The queue of a condition variable has its philosopher only. -/
theorem CondBody.queue_eq (h : CondBody d i l) (hj : j ∈ (d.mt.sem (.cv j)).waitQueue) :
    (d.mt.sem (.cv j)).waitQueue = [j] := by
  have hall : ∀ k ∈ (d.mt.sem (.cv j)).waitQueue, k = j := by
    intro k hk
    have hpc := h.mt.queues.mem (.cv j) k hk
    have hki : k ≠ i := by
      rintro rfl
      exact nomatch h.inside.symm.trans hpc
    exact (pc_eq_cv ((h.pc k hki).symm.trans hpc)).2
  have hnodup := h.mt.queues.nodup (.cv j)
  cases hq : (d.mt.sem (.cv j)).waitQueue with
  | nil =>
    rw [hq] at hj
    cases hj
  | cons a rest =>
    rw [hq] at hall hnodup
    obtain rfl := hall a List.mem_cons_self
    cases rest with
    | nil => rfl
    | cons b rest =>
      obtain rfl := hall b (List.mem_cons_of_mem _ List.mem_cons_self)
      exact absurd List.mem_cons_self (List.nodup_cons.1 hnodup).1

/-- Nobody else waits on the condition variable of the one who runs. -/
theorem CondBody.count_self (h : CondBody d i l) : ¬ 0 < d.mt.count i := by
  rw [h.mt.counted.cv_pos]
  rintro ⟨k, hk⟩
  by_cases hki : k = i
  · rw [hki, h.inside] at hk
    cases hk
  · exact hki (pc_eq_cv ((h.pc k hki).symm.trans hk)).2

theorem Cond.Fits.congr (h : d.Fits i) (hplace : d'.place i = d.place i)
    (hstate : d'.stateCondvar i = d.stateCondvar i)
    (hqueue : (d'.mt.sem (.cv i)).waitQueue = (d.mt.sem (.cv i)).waitQueue) : d'.Fits i := by
  rw [Cond.Fits, hplace, hstate, hqueue]
  exact h

/-! ### The queues of the condition variables -/

variable {mt : Monitor.State (Fin N) (Fin N)} {c : Fin N} {m : Monitor.Place (Fin N)}

theorem resume_sem : (mt.resume i m).sem = mt.sem := by
  cases m <;> rfl

theorem resume_pc : (mt.resume i m).pc = update mt.pc i .inside := by
  cases m <;> rfl

theorem release_cv : mt.release.sem (.cv c) = mt.sem (.cv c) := by
  rw [Monitor.State.release]
  split
  · exact Monitor.State.up_sem_of_ne .next (.cv c) nofun mt
  · exact Monitor.State.up_sem_of_ne .mutex (.cv c) nofun mt

theorem release_pc : mt.release.pc = mt.pc := by
  rw [Monitor.State.release]
  split <;> rfl

theorem enter_cv : (mt.enter i).sem (.cv c) = mt.sem (.cv c) :=
  Monitor.State.callDown_sem_of_ne .mutex (.cv c) nofun i mt

theorem condWait_cv (h : c ≠ j) : (mt.condWait i j).sem (.cv c) = mt.sem (.cv c) := by
  refine (Monitor.State.callDown_sem_of_ne (.cv j) (.cv c) (fun heq => h (Monitor.Place.cv.inj heq)) i
    _).trans ?_
  rw [release_cv]

theorem condWait_cv_self : (mt.condWait i j).sem (.cv j) = (mt.sem (.cv j)).down i := by
  refine (update_self _ _ _).trans ?_
  rw [release_cv]

theorem condWait_pc : (mt.condWait i j).pc = update mt.pc i (.downOf (.cv j)) := by
  show update (Monitor.State.release _).pc i _ = _
  rw [release_pc]

theorem condSignal_cv (h : c ≠ j) (hcount : 0 < mt.count j) :
    (mt.condSignal i j).sem (.cv c) = mt.sem (.cv c) := by
  rw [Monitor.State.condSignal, if_pos hcount]
  refine (Monitor.State.callDown_sem_of_ne .next (.cv c) nofun i _).trans ?_
  exact Monitor.State.up_sem_of_ne (.cv j) (.cv c) (fun heq => h (Monitor.Place.cv.inj heq)) _

theorem condSignal_cv_self (hcount : 0 < mt.count j) :
    (mt.condSignal i j).sem (.cv j) = (mt.sem (.cv j)).up := by
  rw [Monitor.State.condSignal, if_pos hcount]
  exact (Monitor.State.callDown_sem_of_ne .next (.cv j) nofun i _).trans (update_self _ _ _)

theorem condSignal_pc (hcount : 0 < mt.count j) :
    (mt.condSignal i j).pc = update mt.pc i (.downOf .next) := by
  rw [Monitor.State.condSignal, if_pos hcount]
  rfl

/-! ### In the monitor -/

theorem CondOk.resume (h : CondOk d) (hi : (d.place i).pc i = .downOf m) (hawake : d.Awake i m)
    (hl : d.place i = .putLeft → RIGHT i ∈ l) : CondBody (d.resume i m) i l := by
  have hpc : (d.mt.resume i m).pc = update d.mt.pc i .inside := resume_pc
  refine ⟨h.mt.resume ((h.pc i).trans hi) hawake, ?_, fun j hj => ?_, fun j _ => ?_, h.apart,
    fun j hj => ?_⟩
  · show (d.mt.resume i m).pc i = .inside
    rw [hpc, update_self]
  · show (d.mt.resume i m).pc j = _
    rw [hpc, update_of_ne hj]
    exact h.pc j
  · refine (h.fits j).congr rfl rfl ?_
    show ((d.mt.resume i m).sem _).waitQueue = _
    rw [resume_sem]
  · refine (h.fed j).imp_right fun ⟨k, hk, hjk⟩ => ⟨k, ?_, hk, hjk⟩
    rintro rfl
    exact hj (hjk ▸ hl hk)

theorem CondBody.thinking (h : CondBody d i []) :
    CondBody (d.setState i .THINKING) i [LEFT i, RIGHT i] := by
  refine ⟨h.mt, h.inside, h.pc, fun j hj => ?_, h.apart.stop nofun, fun j hj => ?_⟩
  · exact (h.fits j hj).congr rfl (update_of_ne hj _ _) rfl
  · rw [List.mem_pair, not_or] at hj
    exact (h.fed j List.not_mem_nil).imp_left fun hfed => hfed.of_not_neighbour hj.1 hj.2

theorem CondBody.hungry (h : CondBody d i []) (hi : d.stateCondvar i = .THINKING) :
    CondBody (d.setState i .HUNGRY) i [i] := by
  refine ⟨h.mt, h.inside, h.pc, fun j hj => ?_, h.apart.stop nofun, fun j hj => ?_⟩
  · exact (h.fits j hj).congr rfl (update_of_ne hj _ _) rfl
  · refine (h.fed j List.not_mem_nil).imp_left fun hfed => hfed.of_not_eating ?_ ?_
    · exact fun heq => hj (heq ▸ List.mem_cons_self)
    · rw [hi]
      exact nofun

theorem CondBody.fedBy (h : CondBody d i (j :: l)) (hfed : Fed d.stateCondvar j) : CondBody d i l := by
  refine ⟨h.mt, h.inside, h.pc, h.fits, h.apart, fun k hk => ?_⟩
  by_cases hkj : k = j
  · rw [hkj]
    exact .inl hfed
  · exact h.fed k fun hmem => (List.mem_cons.1 hmem).elim hkj hk

/-- The philosopher takes the forks itself; nobody is woken up. -/
theorem CondBody.eat (h : CondBody d i (i :: l)) (hcan : CanEat d.stateCondvar i) :
    CondBody (d.setState i .EATING) i l := by
  refine CondBody.fedBy ⟨h.mt, h.inside, h.pc, fun j hj => ?_, h.apart.eat hcan, fun j hj => ?_⟩ fed_eat
  · exact (h.fits j hj).congr rfl (update_of_ne hj _ _) rfl
  · exact (h.fed j hj).imp_left Fed.eat

theorem phiTestCondvar_self (h : CondBody d i (i :: l)) (hi : d.stateCondvar i = .HUNGRY) :
    ∃ d', d.phiTestCondvar i i = (d', false) ∧ CondBody d' i l ∧ d'.stateCondvar i ≠ .THINKING := by
  rw [Cond.phiTestCondvar]
  split
  case isTrue hcan =>
    have hnone := Monitor.condSignal_of_none (p := i) h.count_self
    refine ⟨d.setState i .EATING, ?_, h.eat hcan, ?_⟩
    · rw [hnone, decide_eq_false h.count_self]
      rfl
    · show update d.stateCondvar i .EATING i ≠ .THINKING
      rw [update_self]
      exact nofun
  case isFalse hnot =>
    refine ⟨d, rfl, h.fedBy (fed_of_not_canEat hnot), ?_⟩
    rw [hi]
    exact nofun

/-- A philosopher who can eat is woken up, and the one who runs sleeps in `cond_signal`. -/
theorem CondBody.signal (h : CondBody d i l) (hji : j ≠ i) (hcan : CanEat d.stateCondvar j)
    (hi : d.stateCondvar i = .THINKING) {place : CondPlace} (hplace : place = .putLeft ∨ place = .putRight)
    (hl : ∀ k ∈ l, k = j ∨ place = .putLeft ∧ k = RIGHT i) :
    0 < d.mt.count j ∧ CondOk (Cond.goto i place { d.setState j .EATING with mt := d.mt.condSignal i j }) := by
  obtain ⟨hwait, hmem⟩ := (h.fits j hji).waits hcan.1
  have hqueue := h.queue_eq hmem
  have hpcj : d.mt.pc j = .downOf (.cv j) := by
    rw [h.pc j hji, hwait]
    rfl
  have hcount : 0 < d.mt.count j := h.mt.counted.cv_pos.2 ⟨j, hpcj⟩
  refine ⟨hcount, (h.mt.condSignal h.inside hqueue hcount).1, fun k => ?_, fun k => ?_, h.apart.eat hcan,
    fun k => ?_⟩
  · show (d.mt.condSignal i j).pc k = (update d.place i place k).pc k
    rw [condSignal_pc hcount]
    by_cases hki : k = i
    · rw [hki, update_self, update_self]
      rcases hplace with rfl | rfl
      · rfl
      · rfl
    · rw [update_of_ne hki, update_of_ne hki]
      exact h.pc k hki
  · by_cases hki : k = i
    · have hstate : update d.stateCondvar j .EATING i = .THINKING := (update_of_ne hji.symm _ _).trans hi
      have hpl : update d.place i place i = place := update_self _ _ _
      rw [hki, Cond.Fits]
      simp only [Cond.goto, Cond.setState, hpl, hstate]
      rcases hplace with rfl | rfl
      · trivial
      · trivial
    · by_cases hkj : k = j
      · have hup : ((d.mt.condSignal i j).sem (.cv j)).waitQueue = [] := by
          rw [condSignal_cv_self hcount, Monitor.up_cons hqueue]
        have hpl : update d.place i place j = .takeWait := (update_of_ne hji _ _).trans hwait
        rw [hkj, Cond.Fits]
        simp only [Cond.goto, Cond.setState, hpl, hup, update_self, List.not_mem_nil, if_false]
      · refine (h.fits k hki).congr (update_of_ne hki _ _) (update_of_ne hkj _ _) ?_
        exact congrArg Semaphore.waitQueue (condSignal_cv hkj hcount)
  · by_cases hkj : k = j
    · rw [hkj]
      exact .inl fed_eat
    by_cases hkl : k ∈ l
    · obtain ⟨hpl, hright⟩ := (hl k hkl).resolve_left hkj
      exact .inr ⟨i, (update_self _ _ _).trans hpl, hright⟩
    · refine (h.fed k hkl).imp Fed.eat fun ⟨a, hai, ha, hka⟩ => ⟨a, ?_, hka⟩
      exact (update_of_ne hai _ _).trans ha

/-! ### Leaving the monitor -/

theorem CondBody.leave (h : CondBody d i []) {place : CondPlace}
    (hplace : place = .eats ∧ d.stateCondvar i = .EATING ∨
      place = .away ∧ d.stateCondvar i = .THINKING) : CondOk ((d.leave i).goto i place) := by
  refine ⟨h.mt.leave h.inside, fun k => ?_, fun k => ?_, h.apart, fun k => ?_⟩
  · show update d.mt.release.pc i .outside k = (update d.place i place k).pc k
    rw [release_pc]
    by_cases hki : k = i
    · rw [hki, update_self, update_self]
      rcases hplace with ⟨rfl, -⟩ | ⟨rfl, -⟩
      · rfl
      · rfl
    · rw [update_of_ne hki, update_of_ne hki]
      exact h.pc k hki
  · by_cases hki : k = i
    · have hpl : update d.place i place i = place := update_self _ _ _
      rw [hki, Cond.Fits]
      simp only [Cond.goto, Cond.leave, hpl]
      rcases hplace with ⟨rfl, hi⟩ | ⟨rfl, hi⟩
      · exact hi
      · exact hi
    · refine (h.fits k hki).congr (update_of_ne hki _ _) rfl ?_
      exact congrArg Semaphore.waitQueue release_cv
  · refine (h.fed k List.not_mem_nil).imp_right fun ⟨a, hai, ha, hka⟩ => ⟨a, ?_, hka⟩
    exact (update_of_ne hai _ _).trans ha

theorem CondBody.wait (h : CondBody d i []) (hi : d.stateCondvar i = .HUNGRY) :
    CondOk (Cond.goto i .takeWait { d with mt := d.mt.condWait i i }) := by
  refine ⟨h.mt.condWait h.inside i, fun k => ?_, fun k => ?_, h.apart, fun k => ?_⟩
  · show (d.mt.condWait i i).pc k = (update d.place i .takeWait k).pc k
    rw [condWait_pc]
    by_cases hki : k = i
    · rw [hki, update_self, update_self]
      rfl
    · rw [update_of_ne hki, update_of_ne hki]
      exact h.pc k hki
  · by_cases hki : k = i
    · have hzero : ¬ 0 < (d.mt.sem (.cv i)).value := by
        rw [h.mt.queues.zero (.cv i) nofun]
        exact lt_irrefl 0
      have hmem : i ∈ ((d.mt.condWait i i).sem (.cv i)).waitQueue := by
        rw [condWait_cv_self, Monitor.down_wait hzero]
        exact List.mem_append_right _ List.mem_cons_self
      have hpl : update d.place i .takeWait i = .takeWait := update_self _ _ _
      rw [hki, Cond.Fits]
      simp only [Cond.goto, hpl, hmem, if_true]
      exact hi
    · refine (h.fits k hki).congr (update_of_ne hki _ _) rfl ?_
      exact congrArg Semaphore.waitQueue (condWait_cv hki)
  · refine (h.fed k List.not_mem_nil).imp_right fun ⟨a, hai, ha, hka⟩ => ⟨a, ?_, hka⟩
    exact (update_of_ne hai _ _).trans ha

theorem CondBody.takeRest (h : CondBody d i []) (hi : d.stateCondvar i ≠ .THINKING) :
    CondOk (d.takeRest i) := by
  rw [Cond.takeRest]
  split
  case isTrue hhungry => exact h.wait hhungry
  case isFalse hnot =>
    refine h.leave (.inl ⟨rfl, ?_⟩)
    cases hst : d.stateCondvar i with
    | THINKING => exact absurd hst hi
    | HUNGRY => exact absurd hst hnot
    | EATING => rfl

theorem CondBody.putRest (h : CondBody d i [RIGHT i]) (hi : d.stateCondvar i = .THINKING) :
    CondOk (d.putRest i) := by
  rw [Cond.putRest, Cond.phiTestCondvar]
  by_cases hcan : CanEat d.stateCondvar (RIGHT i)
  · obtain ⟨hcount, hok⟩ := h.signal (RIGHT_ne i) hcan hi (.inr rfl) fun k hk => .inl (List.mem_singleton.1 hk)
    rw [if_pos hcan, decide_eq_true hcount]
    exact hok
  · rw [if_neg hcan]
    exact (h.fedBy (fed_of_not_canEat hcan)).leave (.inr ⟨rfl, hi⟩)

theorem CondBody.putForks (h : CondBody d i []) : CondOk (d.phiPutForksCondvar i) := by
  have hbody := h.thinking
  have hi : (d.setState i .THINKING).stateCondvar i = .THINKING := update_self _ _ _
  rw [Cond.phiPutForksCondvar, Cond.phiTestCondvar]
  by_cases hcan : CanEat (d.setState i .THINKING).stateCondvar (LEFT i)
  · obtain ⟨hcount, hok⟩ := hbody.signal (LEFT_ne i) hcan hi (.inl rfl) fun k hk =>
      (List.mem_pair.1 hk).imp_right fun hright => ⟨rfl, hright⟩
    rw [if_pos hcan, decide_eq_true hcount]
    exact hok
  · rw [if_neg hcan]
    exact (hbody.fedBy (fed_of_not_canEat hcan)).putRest hi

theorem CondBody.takeForks (h : CondBody d i []) (hi : d.stateCondvar i = .THINKING) :
    CondOk (d.phiTakeForksCondvar i) := by
  obtain ⟨d', htest, hbody, hne⟩ := phiTestCondvar_self (h.hungry hi) (update_self _ _ _)
  rw [Cond.phiTakeForksCondvar, htest]
  exact hbody.takeRest hne

theorem CondOk.enter (h : CondOk d) {place : CondPlace}
    (hi : d.place i = .away ∧ place = .takeMutex ∨ d.place i = .eats ∧ place = .putMutex) :
    CondOk ((d.enter i).goto i place) := by
  have hout : d.mt.pc i = .outside := by
    rw [h.pc]
    rcases hi with ⟨hi, -⟩ | ⟨hi, -⟩
    · rw [hi]
      rfl
    · rw [hi]
      rfl
  refine ⟨h.mt.enter hout, fun k => ?_, fun k => ?_, h.apart, fun k => ?_⟩
  · show update d.mt.pc i (.downOf .mutex) k = (update d.place i place k).pc k
    by_cases hki : k = i
    · rw [hki, update_self, update_self]
      rcases hi with ⟨-, rfl⟩ | ⟨-, rfl⟩
      · rfl
      · rfl
    · rw [update_of_ne hki, update_of_ne hki]
      exact h.pc k
  · by_cases hki : k = i
    · have hpl : update d.place i place i = place := update_self _ _ _
      have hfits := h.fits i
      rw [hki, Cond.Fits]
      rw [Cond.Fits] at hfits
      simp only [Cond.goto, Cond.enter, hpl]
      rcases hi with ⟨hi, rfl⟩ | ⟨hi, rfl⟩
      · rw [hi] at hfits
        exact hfits
      · rw [hi] at hfits
        exact hfits
    · refine (h.fits k).congr (update_of_ne hki _ _) rfl ?_
      exact congrArg Semaphore.waitQueue enter_cv
  · refine (h.fed k).imp_right fun ⟨a, ha, hka⟩ => ⟨a, (update_of_ne ?_ _ _).trans ha, hka⟩
    rintro rfl
    rcases hi with ⟨hi, -⟩ | ⟨hi, -⟩
    · exact nomatch hi.symm.trans ha
    · exact nomatch hi.symm.trans ha

theorem CondOk.step (h : CondOk d) (hstep : Cond.Step i d d') : CondOk d' := by
  cases hstep with
  | take hi => exact h.enter (.inl ⟨hi, rfl⟩)
  | put hi => exact h.enter (.inr ⟨hi, rfl⟩)
  | takeForks hi hawake =>
    have hfits := h.fits i
    rw [Cond.Fits, hi] at hfits
    exact (h.resume (by rw [hi]; rfl) hawake (by rw [hi]; exact nofun)).takeForks hfits
  | takeSignal hi hawake =>
    have hfits := h.fits i
    rw [Cond.Fits, hi] at hfits
    exact hfits.elim
  | takeWait hi hawake =>
    have hfits := h.fits i
    rw [Cond.Fits, hi] at hfits
    refine (h.resume (by rw [hi]; rfl) hawake (by rw [hi]; exact nofun)).leave (.inl ⟨rfl, ?_⟩)
    exact hfits.trans (if_neg hawake)
  | putForks hi hawake =>
    exact (h.resume (by rw [hi]; rfl) hawake (by rw [hi]; exact nofun)).putForks
  | putLeft hi hawake =>
    have hfits := h.fits i
    rw [Cond.Fits, hi] at hfits
    exact (h.resume (by rw [hi]; rfl) hawake fun _ => List.mem_cons_self).putRest hfits
  | putRight hi hawake =>
    have hfits := h.fits i
    rw [Cond.Fits, hi] at hfits
    exact (h.resume (by rw [hi]; rfl) hawake (by rw [hi]; exact nofun)).leave (.inr ⟨rfl, hfits⟩)

theorem condOk_init : CondOk Cond.init :=
  ⟨Monitor.monitorOk_init, fun _ => rfl, fun _ => rfl, nofun, fun _ => .inl nofun⟩

theorem condOk_run (hrun : ReflTransGen Cond.Next Cond.init d) : CondOk d :=
  Transition.invariant (fun _ _ ha ⟨_, hstep⟩ => ha.step hstep) hrun condOk_init

/-- The philosopher sleeps in a `down`. -/
def Cond.Blocked (d : Cond) (i : Fin N) : Prop := ∃ l, i ∈ (d.mt.sem l).waitQueue

/-- While `mutex` is free, nobody is in `cond_signal`. -/
theorem CondOk.fed_of_free (h : CondOk d) (hfree : (d.mt.sem .mutex).value = 1) :
    Fed d.stateCondvar i := by
  refine (h.fed i).resolve_right ?_
  rintro ⟨k, hk, -⟩
  have hpc : d.mt.pc k = .downOf .next := by
    rw [h.pc k, hk]
    rfl
  cases h.mt.token with
  | free hv hq hnone hnext => exact hnext k hpc
  | held p hv hp => exact absurd (hv.symm.trans hfree) nofun

/-- Somebody can go on. -/
theorem CondOk.exists_not_blocked (h : CondOk d) : ∃ i, ¬ d.Blocked i := by
  cases h.mt.token with
  | held p hv hp =>
    refine ⟨p, ?_⟩
    rintro ⟨l, hl⟩
    exact h.mt.queues.not_active hl ((hp p).2 rfl)
  | free hv hq hnone hnext =>
    obtain ⟨i, hi⟩ := not_all_hungry fun i => h.fed_of_free (i := i) hv
    refine ⟨i, ?_⟩
    rintro ⟨l, hl⟩
    have hpc := h.mt.queues.mem l i hl
    cases l with
    | mutex =>
      rw [hq] at hl
      cases hl
    | next => exact hnext i hpc
    | cv c =>
      obtain ⟨hplace, rfl⟩ := pc_eq_cv ((h.pc i).symm.trans hpc)
      have hfits := h.fits i
      rw [Cond.Fits, hplace] at hfits
      exact hi (hfits.trans (if_pos hl))

/-- **The philosophers**, in both versions: neighbours never eat together, who has the forks eats,
nobody sleeps hungry between two who do not eat, and somebody is awake. -/
theorem philosophers {st : Sema} (hsema : ReflTransGen Sema.Next Sema.init st)
    (hcond : ReflTransGen Cond.Next Cond.init d) :
    ((∀ i, st.stateSema i = .EATING → st.stateSema (RIGHT i) ≠ .EATING) ∧
      (∀ i, st.place i = .eats → st.stateSema i = .EATING) ∧
      (st.mutex.value = 1 → ∀ i ∈ (st.s i).waitQueue, st.stateSema i = .HUNGRY →
        st.stateSema (LEFT i) = .EATING ∨ st.stateSema (RIGHT i) = .EATING) ∧
      ∃ i, ¬ st.Blocked i) ∧
    (∀ i, d.stateCondvar i = .EATING → d.stateCondvar (RIGHT i) ≠ .EATING) ∧
      (∀ i, d.place i = .eats → d.stateCondvar i = .EATING) ∧
      ((d.mt.sem .mutex).value = 1 → d.mt.nextCount = 0 → ∀ i ∈ (d.mt.sem (.cv i)).waitQueue,
        d.stateCondvar i = .HUNGRY →
          d.stateCondvar (LEFT i) = .EATING ∨ d.stateCondvar (RIGHT i) = .EATING) ∧
      ∃ i, ¬ d.Blocked i := by
  have hs := semaOk_run hsema
  have hd := condOk_run hcond
  refine ⟨⟨hs.table.apart, fun i hi => ?_, fun _ i _ => hs.table.fed i List.not_mem_nil,
    hs.exists_not_blocked⟩, hd.apart, fun i hi => ?_, fun hfree _ i _ => hd.fed_of_free hfree,
    hd.exists_not_blocked⟩
  · have hfits := hs.table.fits i
    rw [hi] at hfits
    exact hfits
  · have hfits := hd.fits i
    rw [Cond.Fits, hi] at hfits
    exact hfits

/-- Philosopher 1 is hungry while its left neighbour eats; in the second version the neighbour has then
put the forks back and is in `cond_signal`. -/
theorem philosophers_hungry : ∃ (st : Sema) (d : Cond), st.stateSema 1 = .HUNGRY ∧
    st.stateSema (LEFT 1) = .EATING ∧ st.Blocked 1 ∧ d.stateCondvar 1 = .EATING ∧ d.place 0 = .putRight ∧
      d.Blocked 0 ∧ ∃ i, ¬ d.Blocked i := by
  obtain ⟨st, hsema, hhungry, heats, hblocked⟩ : ∃ st, ReflTransGen Sema.Next Sema.init st ∧
      st.stateSema 1 = .HUNGRY ∧ st.stateSema (LEFT 1) = .EATING ∧ 1 ∈ (st.s 1).waitQueue :=
    ⟨_, ((((ReflTransGen.single ⟨0, .take rfl⟩).tail ⟨0, .takeForks rfl (by decide)⟩).tail
      ⟨0, .eat rfl (by decide)⟩).tail ⟨1, .take rfl⟩).tail ⟨1, .takeForks rfl (by decide)⟩,
      rfl, rfl, by decide⟩
  obtain ⟨d, hcond, heats', hplace, hblocked'⟩ : ∃ d, ReflTransGen Cond.Next Cond.init d ∧
      d.stateCondvar 1 = .EATING ∧ d.place 0 = .putRight ∧ 0 ∈ (d.mt.sem .next).waitQueue :=
    ⟨_, (((((ReflTransGen.single ⟨0, .take rfl⟩).tail ⟨0, .takeForks rfl (by decide)⟩).tail
      ⟨1, .take rfl⟩).tail ⟨1, .takeForks rfl (by decide)⟩).tail ⟨0, .put rfl⟩).tail
      ⟨0, .putForks rfl (by decide)⟩, rfl, rfl, by decide⟩
  obtain ⟨-, -, -, -, hawake⟩ := philosophers hsema hcond
  exact ⟨st, d, hhungry, heats, .inr ⟨1, hblocked⟩, heats', hplace, ⟨.next, hblocked'⟩, hawake⟩

end Ucore.Philosophers
