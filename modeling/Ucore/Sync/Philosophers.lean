import Mathlib.Logic.Function.Basic
import Ucore.Lib.Transition
import Ucore.Sync.Semaphore

/-!
# The dining philosophers with semaphores (`lab8/kern/sync/check_sync.c`)

The table: who thinks, who is hungry and who eats.  `CanEat` is the condition of `phi_test_sema` and
`phi_test_condvar`, `Apart` says that neighbours do not eat together, and `Fed` that a hungry philosopher
has a neighbour who eats.

In the version with semaphores a philosopher who has got `mutex` does not block until the end of
`phi_put_forks_sema`, or until the `down` of its own semaphore.  It may take any number of turns.
-/

namespace Ucore.Philosophers

open Function Relation Sync

def N : ℕ := 5

instance : NeZero N := ⟨by decide⟩

/-- The macro `LEFT`. -/
def LEFT (i : Fin N) : Fin N := ⟨(i.val + N - 1) % N, Nat.mod_lt _ (by decide)⟩

/-- The macro `RIGHT`. -/
def RIGHT (i : Fin N) : Fin N := ⟨(i.val + 1) % N, Nat.mod_lt _ (by decide)⟩

inductive PhiState
  | THINKING
  | HUNGRY
  | EATING
  deriving DecidableEq, Repr

/-- The condition of `phi_test_sema` and `phi_test_condvar`. -/
def CanEat (state : Fin N → PhiState) (i : Fin N) : Prop :=
  state i = .HUNGRY ∧ state (LEFT i) ≠ .EATING ∧ state (RIGHT i) ≠ .EATING

instance (state : Fin N → PhiState) (i : Fin N) : Decidable (CanEat state i) :=
  inferInstanceAs (Decidable (_ ∧ _))

/-! ### The table -/

variable {state : Fin N → PhiState} {i j p q : Fin N}

theorem RIGHT_LEFT : ∀ i, RIGHT (LEFT i) = i := by decide

theorem LEFT_RIGHT : ∀ i, LEFT (RIGHT i) = i := by decide

theorem LEFT_ne : ∀ i, LEFT i ≠ i := by decide

theorem RIGHT_ne : ∀ i, RIGHT i ≠ i := by decide

/-- Neighbours do not eat together. -/
def Apart (state : Fin N → PhiState) : Prop := ∀ i, state i = .EATING → state (RIGHT i) ≠ .EATING

/-- If it is hungry, a neighbour eats. -/
def Fed (state : Fin N → PhiState) (i : Fin N) : Prop :=
  state i = .HUNGRY → state (LEFT i) = .EATING ∨ state (RIGHT i) = .EATING

theorem Apart.eat (h : Apart state) (hi : CanEat state i) : Apart (update state i .EATING) := by
  intro j hj
  by_cases hji : j = i
  · rw [hji, update_of_ne (RIGHT_ne i)]
    exact hi.2.2
  · rw [update_of_ne hji] at hj
    by_cases hri : RIGHT j = i
    · -- `j` is the left neighbour of `i`
      have hleft := hi.2.1
      rw [← hri, LEFT_RIGHT] at hleft
      exact absurd hj hleft
    · rw [update_of_ne hri]
      exact h j hj

theorem Apart.stop (h : Apart state) {v : PhiState} (hv : v ≠ .EATING) : Apart (update state i v) := by
  intro j hj
  by_cases hji : j = i
  · rw [hji, update_self] at hj
    exact absurd hj hv
  · rw [update_of_ne hji] at hj
    by_cases hri : RIGHT j = i
    · rw [hri, update_self]
      exact hv
    · rw [update_of_ne hri]
      exact h j hj

theorem Fed.eat (h : Fed state j) : Fed (update state i .EATING) j := by
  intro hj
  by_cases hji : j = i
  · rw [hji, update_self] at hj
    cases hj
  · rw [update_of_ne hji] at hj
    refine (h hj).imp (fun hl => ?_) fun hr => ?_
    · by_cases hli : LEFT j = i
      · rw [hli, update_self]
      · rw [update_of_ne hli]
        exact hl
    · by_cases hri : RIGHT j = i
      · rw [hri, update_self]
      · rw [update_of_ne hri]
        exact hr

theorem fed_eat : Fed (update state i .EATING) i := by
  intro hi
  rw [update_self] at hi
  cases hi

/-- A philosopher who cannot eat is not hungry, or a neighbour eats. -/
theorem fed_of_not_canEat (h : ¬ CanEat state i) : Fed state i := by
  intro hi
  by_contra hnot
  rw [not_or] at hnot
  exact h ⟨hi, hnot⟩

theorem fed_thinking : Fed (update state i .THINKING) i := by
  intro hi
  rw [update_self] at hi
  cases hi

/-- A philosopher who does not eat may change its state. -/
theorem Fed.of_not_eating (h : Fed state j) (hji : j ≠ i) (hi : state i ≠ .EATING) {v : PhiState} :
    Fed (update state i v) j := by
  intro hj
  rw [update_of_ne hji] at hj
  refine (h hj).imp (fun hl => ?_) fun hr => ?_
  · have hne : LEFT j ≠ i := by
      rintro rfl
      exact hi hl
    rw [update_of_ne hne]
    exact hl
  · have hne : RIGHT j ≠ i := by
      rintro rfl
      exact hi hr
    rw [update_of_ne hne]
    exact hr

/-- Only the neighbours see that a philosopher stops eating. -/
theorem Fed.of_not_neighbour (h : Fed state j) (hl : j ≠ LEFT i) (hr : j ≠ RIGHT i) :
    Fed (update state i .THINKING) j := by
  by_cases hji : j = i
  · rw [hji]
    exact fed_thinking
  intro hj
  rw [update_of_ne hji] at hj
  have hli : LEFT j ≠ i := by
    rintro rfl
    exact hr (RIGHT_LEFT j).symm
  have hri : RIGHT j ≠ i := by
    rintro rfl
    exact hl (LEFT_RIGHT j).symm
  rw [update_of_ne hli, update_of_ne hri]
  exact h hj

/-- If all are hungry, nobody is fed. -/
theorem not_all_hungry (h : ∀ i, Fed state i) : ∃ i, state i ≠ .HUNGRY := by
  by_contra hall
  rw [not_exists] at hall
  have hungry : ∀ i, state i = .HUNGRY := fun i => not_not.1 (hall i)
  rcases h (LEFT ⟨0, by decide⟩) (hungry _) with heat | heat
  · rw [hungry] at heat
    cases heat
  · rw [hungry] at heat
    cases heat

/-! ### The processes -/

/-- Where a philosopher is. -/
inductive SemaPlace
  /-- it has no forks and has not asked for them -/
  | away
  /-- in `down(&mutex)` of `phi_take_forks_sema` -/
  | takeMutex
  /-- in `down(&s[i])` -/
  | takeFork
  /-- `phi_take_forks_sema` has returned -/
  | eats
  /-- in `down(&mutex)` of `phi_put_forks_sema` -/
  | putMutex
  deriving DecidableEq, Repr

/-- `state_sema`, `mutex`, `s` and the processes. -/
structure Sema where
  stateSema : Fin N → PhiState
  mutex : Semaphore (Fin N)
  s : Fin N → Semaphore (Fin N)
  place : Fin N → SemaPlace

namespace Sema

/-- The start of `check_sync`. -/
def init : Sema := ⟨fun _ => .THINKING, semInit 1, fun _ => semInit 0, fun _ => .away⟩

/-- `phi_test_sema`. -/
def phiTestSema (i : Fin N) (st : Sema) : Sema :=
  if CanEat st.stateSema i then
    { st with
      stateSema := update st.stateSema i .EATING
      s := update st.s i (st.s i).up }
  else st

/-- `down(&mutex)`, until it returns or sleeps. -/
def downMutex (i : Fin N) (place : SemaPlace) (st : Sema) : Sema :=
  { st with mutex := st.mutex.down i, place := update st.place i place }

/-- `phi_take_forks_sema`, from the end of `down(&mutex)` until `down(&s[i])` returns or sleeps. -/
def phiTakeForksSema (i : Fin N) (st : Sema) : Sema :=
  let st := { st with stateSema := update st.stateSema i .HUNGRY }
  let st := st.phiTestSema i
  let st := { st with mutex := st.mutex.up }
  { st with s := update st.s i ((st.s i).down i), place := update st.place i .takeFork }

/-- `phi_put_forks_sema`, from the end of `down(&mutex)` on. -/
def phiPutForksSema (i : Fin N) (st : Sema) : Sema :=
  let st := { st with stateSema := update st.stateSema i .THINKING }
  let st := (st.phiTestSema (LEFT i)).phiTestSema (RIGHT i)
  { st with mutex := st.mutex.up, place := update st.place i .away }

/-- Philosopher `i` runs until it blocks, or comes to the next call. -/
inductive Step (i : Fin N) (st : Sema) : Sema → Prop
  | take (hi : st.place i = .away) : Step i st (st.downMutex i .takeMutex)
  | takeForks (hi : st.place i = .takeMutex) (hawake : i ∉ st.mutex.waitQueue) :
      Step i st (st.phiTakeForksSema i)
  | eat (hi : st.place i = .takeFork) (hawake : i ∉ (st.s i).waitQueue) :
      Step i st { st with place := update st.place i .eats }
  | put (hi : st.place i = .eats) : Step i st (st.downMutex i .putMutex)
  | putForks (hi : st.place i = .putMutex) (hawake : i ∉ st.mutex.waitQueue) :
      Step i st (st.phiPutForksSema i)

/-- Some philosopher takes a step. -/
def Next (st st' : Sema) : Prop := ∃ i, Step i st st'

end Sema

/-! ### The invariant -/

/-- The states of a philosopher at the place. -/
def SemaPlace.Fits : SemaPlace → PhiState → Prop
  | .away, v | .takeMutex, v => v = .THINKING
  | .takeFork, v => v ≠ .THINKING
  | .eats, v | .putMutex, v => v = .EATING

/-- Only the philosophers of `l` may be hungry between two who do not eat. -/
structure SemaTable (st : Sema) (l : List (Fin N)) : Prop where
  fits : ∀ i, (st.place i).Fits (st.stateSema i)
  s : ∀ i, st.s i = ⟨0, if st.place i = .takeFork ∧ st.stateSema i = .HUNGRY then [i] else []⟩
  apart : Apart st.stateSema
  fed : ∀ i, i ∉ l → Fed st.stateSema i

structure SemaOk (st : Sema) : Prop where
  table : SemaTable st []
  mutex : st.mutex.Guards {i | st.place i = .takeMutex ∨ st.place i = .putMutex}

variable {st st' : Sema} {l : List (Fin N)}

theorem SemaTable.test (h : SemaTable st (j :: l)) : SemaTable (st.phiTestSema j) l := by
  rw [Sema.phiTestSema]
  split
  case isFalse hnot =>
    refine ⟨h.fits, h.s, h.apart, fun i hi => ?_⟩
    by_cases hij : i = j
    · rw [hij]
      exact fed_of_not_canEat hnot
    · exact h.fed i fun hmem => (List.mem_cons.1 hmem).elim hij hi
  case isTrue hcan =>
    -- it is hungry, so it sleeps in the `down` of its semaphore
    have hplace : st.place j = .takeFork := by
      have hfits := h.fits j
      rw [hcan.1] at hfits
      cases hpl : st.place j with
      | takeFork => rfl
      | away => exact nomatch hpl ▸ hfits
      | takeMutex => exact nomatch hpl ▸ hfits
      | eats => exact nomatch hpl ▸ hfits
      | putMutex => exact nomatch hpl ▸ hfits
    have hs : (st.s j).up = ⟨0, []⟩ := by
      rw [h.s j, if_pos ⟨hplace, hcan.1⟩]
      rfl
    refine ⟨fun i => ?_, fun i => ?_, h.apart.eat hcan, fun i hi => ?_⟩
    · show (st.place i).Fits (update st.stateSema j .EATING i)
      by_cases hij : i = j
      · rw [hij, update_self, hplace]
        exact nofun
      · rw [update_of_ne hij]
        exact h.fits i
    · show update st.s j (st.s j).up i =
        ⟨0, if st.place i = .takeFork ∧ update st.stateSema j .EATING i = .HUNGRY then [i] else []⟩
      by_cases hij : i = j
      · rw [hij, update_self, update_self, hs, if_neg nofun]
      · rw [update_of_ne hij, update_of_ne hij]
        exact h.s i
    · by_cases hij : i = j
      · rw [hij]
        exact fed_eat
      · exact (h.fed i fun hmem => (List.mem_cons.1 hmem).elim hij hi).eat

/-- A philosopher who waits for no fork goes to a place where its state fits. -/
theorem SemaTable.goto (h : SemaTable st l) {place : SemaPlace} {mutex : Semaphore (Fin N)}
    (hfits : place.Fits (st.stateSema i)) (hfrom : st.place i ≠ .takeFork ∨ st.stateSema i ≠ .HUNGRY)
    (hto : place ≠ .takeFork) :
    SemaTable { st with mutex := mutex, place := update st.place i place } l := by
  refine ⟨fun j => ?_, fun j => ?_, h.apart, h.fed⟩
  · show (update st.place i place j).Fits (st.stateSema j)
    by_cases hji : j = i
    · rw [hji, update_self]
      exact hfits
    · rw [update_of_ne hji]
      exact h.fits j
  · show st.s j = ⟨0, if update st.place i place j = .takeFork ∧ st.stateSema j = .HUNGRY then [j] else []⟩
    by_cases hji : j = i
    · rw [hji, update_self, if_neg fun hand => hto hand.1, h.s i,
        if_neg fun hand => hfrom.elim (fun hne => hne hand.1) fun hne => hne hand.2]
    · rw [update_of_ne hji]
      exact h.s j

theorem SemaOk.downMutex (h : SemaOk st) {place : SemaPlace}
    (hfrom : st.place i = .away ∧ place = .takeMutex ∨ st.place i = .eats ∧ place = .putMutex) :
    SemaOk (st.downMutex i place) := by
  have hfits := h.table.fits i
  have hplace : place = .takeMutex ∨ place = .putMutex := hfrom.imp And.right And.right
  refine ⟨h.table.goto ?_ ?_ ?_, h.mutex.down ?_ fun q => ?_⟩
  · rcases hfrom with ⟨hi, rfl⟩ | ⟨hi, rfl⟩
    · rwa [hi] at hfits
    · rwa [hi] at hfits
  · rcases hfrom with ⟨hi, -⟩ | ⟨hi, -⟩
    · rw [hi]
      exact .inl nofun
    · rw [hi]
      exact .inl nofun
  · rcases hplace with rfl | rfl
    · exact nofun
    · exact nofun
  · rcases hfrom with ⟨hi, -⟩ | ⟨hi, -⟩
    · simp [hi]
    · simp [hi]
  · show update st.place i place q = .takeMutex ∨ update st.place i place q = .putMutex ↔ _
    by_cases hqi : q = i
    · rw [hqi, update_self]
      exact iff_of_true hplace (.inl rfl)
    · rw [update_of_ne hqi]
      exact (or_iff_right hqi).symm

/-- The end of the critical section. -/
theorem SemaOk.upMutex (h : SemaOk st) (place : SemaPlace)
    (hi : st.place i = .takeMutex ∨ st.place i = .putMutex) (hawake : i ∉ st.mutex.waitQueue)
    (hplace : ¬ (place = .takeMutex ∨ place = .putMutex)) :
    st.mutex.up.Guards
      {j | update st.place i place j = .takeMutex ∨ update st.place i place j = .putMutex} := by
  refine h.mutex.up hi hawake fun q => ?_
  show update st.place i place q = .takeMutex ∨ update st.place i place q = .putMutex ↔ _
  by_cases hqi : q = i
  · rw [hqi, update_self]
    exact iff_of_false hplace fun hand => hand.2 rfl
  · rw [update_of_ne hqi]
    exact (and_iff_left hqi).symm

theorem SemaOk.takeForks (h : SemaOk st) (hi : st.place i = .takeMutex)
    (hawake : i ∉ st.mutex.waitQueue) : SemaOk (st.phiTakeForksSema i) := by
  have hthinking : st.stateSema i = .THINKING := by
    have hfits := h.table.fits i
    rwa [hi] at hfits
  have hs : st.s i = ⟨0, []⟩ := by
    rw [h.table.s i, hi, if_neg nofun]
  have hne : st.stateSema i ≠ .EATING := by
    rw [hthinking]
    exact nofun
  have hmutex := h.upMutex .takeFork (.inl hi) hawake nofun
  have hfed : ∀ j, j ≠ i → Fed (update st.stateSema i .HUNGRY) j := fun j hji =>
    (h.table.fed j List.not_mem_nil).of_not_eating hji hne
  have hhungry : Apart (update st.stateSema i .HUNGRY) := h.table.apart.stop nofun
  rw [Sema.phiTakeForksSema, Sema.phiTestSema]
  dsimp only
  split
  case isTrue hcan =>
    refine ⟨⟨fun j => ?_, fun j => ?_, hhungry.eat hcan, fun j _ => ?_⟩, hmutex⟩
    · show (update st.place i .takeFork j).Fits (update (update st.stateSema i .HUNGRY) i .EATING j)
      by_cases hji : j = i
      · rw [hji, update_self, update_self]
        exact nofun
      · rw [update_of_ne hji, update_of_ne hji, update_of_ne hji]
        exact h.table.fits j
    · -- the token is there when it comes to `down`
      show update (update st.s i (st.s i).up) i ((update st.s i (st.s i).up i).down i) j = ⟨0,
        if update st.place i .takeFork j = .takeFork ∧
          update (update st.stateSema i .HUNGRY) i .EATING j = .HUNGRY then [j] else []⟩
      by_cases hji : j = i
      · rw [hji, update_self, update_self, update_self, update_self, hs, if_neg fun hand => nomatch hand.2]
        rfl
      · rw [update_of_ne hji, update_of_ne hji, update_of_ne hji, update_of_ne hji, update_of_ne hji]
        exact h.table.s j
    · by_cases hji : j = i
      · rw [hji]
        exact fed_eat
      · exact (hfed j hji).eat
  case isFalse hnot =>
    refine ⟨⟨fun j => ?_, fun j => ?_, hhungry, fun j _ => ?_⟩, hmutex⟩
    · show (update st.place i .takeFork j).Fits (update st.stateSema i .HUNGRY j)
      by_cases hji : j = i
      · rw [hji, update_self, update_self]
        exact nofun
      · rw [update_of_ne hji, update_of_ne hji]
        exact h.table.fits j
    · show update st.s i ((st.s i).down i) j = ⟨0, if update st.place i .takeFork j = .takeFork ∧
        update st.stateSema i .HUNGRY j = .HUNGRY then [j] else []⟩
      by_cases hji : j = i
      · rw [hji, update_self, update_self, update_self, hs, if_pos ⟨rfl, rfl⟩]
        rfl
      · rw [update_of_ne hji, update_of_ne hji, update_of_ne hji]
        exact h.table.s j
    · by_cases hji : j = i
      · rw [hji]
        exact fed_of_not_canEat hnot
      · exact hfed j hji

theorem SemaOk.eat (h : SemaOk st) (hi : st.place i = .takeFork) (hawake : i ∉ (st.s i).waitQueue) :
    SemaOk { st with place := update st.place i .eats } := by
  have hnot : st.stateSema i ≠ .HUNGRY := by
    intro hhungry
    rw [h.table.s i, if_pos ⟨hi, hhungry⟩] at hawake
    exact hawake List.mem_cons_self
  have heats : st.stateSema i = .EATING := by
    have hfits := h.table.fits i
    rw [hi] at hfits
    cases hst : st.stateSema i with
    | THINKING => exact absurd hst hfits
    | HUNGRY => exact absurd hst hnot
    | EATING => rfl
  refine ⟨h.table.goto heats (.inr hnot) nofun, h.mutex.congr fun q => ?_⟩
  show update st.place i .eats q = .takeMutex ∨ update st.place i .eats q = .putMutex ↔ _
  by_cases hqi : q = i
  · rw [hqi, update_self]
    refine iff_of_false nofun fun hor => ?_
    rcases hor with hor | hor
    · exact nomatch hi.symm.trans hor
    · exact nomatch hi.symm.trans hor
  · rw [update_of_ne hqi]
    rfl

theorem phiTestSema_mutex : (st.phiTestSema j).mutex = st.mutex := by
  rw [Sema.phiTestSema]
  split <;> rfl

theorem phiTestSema_place : (st.phiTestSema j).place = st.place := by
  rw [Sema.phiTestSema]
  split <;> rfl

/-- `phi_test_sema` looks at the table only. -/
theorem phiTestSema_frame (mutex : Semaphore (Fin N)) (place : Fin N → SemaPlace) :
    ({ st.phiTestSema j with mutex := mutex, place := place } : Sema) =
      ({ st with mutex := mutex, place := place } : Sema).phiTestSema j := by
  rw [Sema.phiTestSema, Sema.phiTestSema]
  split <;> rfl

/-- So the philosopher may as well have left before it looks at its neighbours. -/
theorem phiPutForksSema_eq : st.phiPutForksSema i = (Sema.phiTestSema (LEFT i) { st with
    stateSema := update st.stateSema i .THINKING
    mutex := st.mutex.up
    place := update st.place i .away }).phiTestSema (RIGHT i) := by
  rw [Sema.phiPutForksSema, phiTestSema_mutex, phiTestSema_mutex, phiTestSema_place, phiTestSema_place, phiTestSema_frame,
    phiTestSema_frame]

theorem SemaOk.putForks (h : SemaOk st) (hi : st.place i = .putMutex)
    (hawake : i ∉ st.mutex.waitQueue) : SemaOk (st.phiPutForksSema i) := by
  rw [phiPutForksSema_eq]
  refine ⟨SemaTable.test (SemaTable.test ⟨fun j => ?_, fun j => ?_, h.table.apart.stop nofun,
    fun j hj => ?_⟩), ?_⟩
  · show (update st.place i .away j).Fits (update st.stateSema i .THINKING j)
    by_cases hji : j = i
    · rw [hji, update_self, update_self]
      rfl
    · rw [update_of_ne hji, update_of_ne hji]
      exact h.table.fits j
  · show st.s j = ⟨0, if update st.place i .away j = .takeFork ∧
      update st.stateSema i .THINKING j = .HUNGRY then [j] else []⟩
    by_cases hji : j = i
    · rw [hji, update_self, if_neg nofun, h.table.s i, hi, if_neg nofun]
    · rw [update_of_ne hji, update_of_ne hji]
      exact h.table.s j
  · rw [List.mem_pair, not_or] at hj
    exact (h.table.fed j List.not_mem_nil).of_not_neighbour hj.1 hj.2
  · rw [phiTestSema_mutex, phiTestSema_mutex, phiTestSema_place, phiTestSema_place]
    exact h.upMutex _ (.inr hi) hawake nofun

theorem SemaOk.step (h : SemaOk st) (hstep : Sema.Step i st st') : SemaOk st' := by
  cases hstep with
  | take hi => exact h.downMutex (.inl ⟨hi, rfl⟩)
  | takeForks hi hawake => exact h.takeForks hi hawake
  | eat hi hawake => exact h.eat hi hawake
  | put hi => exact h.downMutex (.inr ⟨hi, rfl⟩)
  | putForks hi hawake => exact h.putForks hi hawake

theorem semaOk_init : SemaOk Sema.init := by
  refine ⟨⟨fun _ => rfl, fun _ => rfl, nofun, fun _ _ => nofun⟩, Semaphore.guards_init fun q hq => ?_⟩
  exact hq.elim nofun nofun

theorem semaOk_run (hrun : ReflTransGen Sema.Next Sema.init st) : SemaOk st :=
  Transition.invariant (fun _ _ ha ⟨_, hstep⟩ => ha.step hstep) hrun semaOk_init

/-- The philosopher sleeps in a `down`. -/
def Sema.Blocked (st : Sema) (i : Fin N) : Prop := i ∈ st.mutex.waitQueue ∨ ∃ j, i ∈ (st.s j).waitQueue

theorem SemaOk.blocked (h : SemaOk st) (hi : i ∈ (st.s j).waitQueue) :
    i = j ∧ st.place i = .takeFork ∧ st.stateSema i = .HUNGRY := by
  rw [h.table.s j] at hi
  split at hi
  case isTrue hwait =>
    rw [List.mem_singleton.1 hi]
    exact ⟨rfl, hwait⟩
  case isFalse => cases hi

/-- Somebody can go on. -/
theorem SemaOk.exists_not_blocked (h : SemaOk st) : ∃ i, ¬ st.Blocked i := by
  by_cases howner : ∃ i, st.place i = .takeMutex ∨ st.place i = .putMutex
  · -- the owner of `mutex`
    obtain ⟨p, hp⟩ := howner
    obtain ⟨q, hq, hawake⟩ := h.mutex.exists_owner hp
    refine ⟨q, fun hb => hb.elim hawake fun ⟨j, hj⟩ => ?_⟩
    have hplace := (h.blocked hj).2.1
    rcases hq with hq | hq
    · exact nomatch hq.symm.trans hplace
    · exact nomatch hq.symm.trans hplace
  · obtain ⟨i, hi⟩ := not_all_hungry fun i => h.table.fed i List.not_mem_nil
    refine ⟨i, fun hb => hb.elim (fun hmem => howner ⟨i, h.mutex.mem_of_waiting hmem⟩) ?_⟩
    rintro ⟨j, hj⟩
    exact hi (h.blocked hj).2.2

end Ucore.Philosophers
