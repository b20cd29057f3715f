import Mathlib.Algebra.BigOperators.Group.Finset.Basic
import Mathlib.Algebra.Order.Group.Multiset
import Ucore.Paging.Unmap

/-!
# `exit_range`

When no table holds a valid entry, `exit_range` frees every table that it walks over.  It frees the
directory page when it has met a table at each place, whatever is left in the directory.

`Frees s s' calls`: from `s` to `s'` the pages of `calls` have been handed to `free_page`, in some
order.  The effect on one directory is `exited`, and the calls for it are `exitCalls`.
-/

namespace Ucore.Paging

open Cow (NPTEENTRY PGSIZE PTE_V Pte USERBASE USERTOP Vma has)

variable {s s' s'' : State} {a i p q start stop : ℕ} {pd0 : Dir} {W V : Finset (Fin NPDEENTRY)}

/-! ### Calls of `free_page` -/

/-- The pages that are freed between two states. -/
structure Frees (s s' : State) (calls : Multiset Released) : Prop where
  freed : ∃ log : List Released, s'.freed = log ++ s.freed ∧ (log : Multiset Released) = calls
  free : ∀ f, f ∈ s'.free ↔ f ∈ s.free ∨ ∃ x ∈ calls, x.page = f

theorem Frees.refl (s : State) : Frees s s 0 :=
  ⟨⟨[], rfl, rfl⟩, fun f => by simp⟩

theorem Frees.trans {calls calls' : Multiset Released} (h₁ : Frees s s' calls)
    (h₂ : Frees s' s'' calls') : Frees s s'' (calls + calls') := by
  obtain ⟨log, hlog, hcalls⟩ := h₁.freed
  obtain ⟨log', hlog', hcalls'⟩ := h₂.freed
  refine ⟨⟨log' ++ log, ?_, ?_⟩, fun f => ?_⟩
  · rw [hlog', hlog, List.append_assoc]
  · rw [← Multiset.coe_add, hcalls, hcalls', add_comm]
  · simp only [h₂.free, h₁.free, Multiset.mem_add, or_and_right, exists_or, or_assoc]

theorem frees_freePage (s : State) (x : Released) : Frees s (freePage x s) {x} := by
  refine ⟨⟨[x], rfl, rfl⟩, fun f => ?_⟩
  show f ∈ insert x.page s.free ↔ _
  rw [Finset.mem_insert, or_comm]
  simp [eq_comm]

theorem Frees.setDir {calls : Multiset Released} (h : Frees s s' calls) (a i : ℕ) (o : Option Dir) :
    Frees s (s'.setDir a i o) calls := ⟨h.freed, h.free⟩

/-! ### One directory -/

/-- The call for a table, if there is one. -/
def tableCall (o : Option Table) : Multiset Released :=
  match o with
  | some pt => {.table pt}
  | none => 0

/-- The directory without the entries `W`. -/
def Dir.clear (pd0 : Dir) (W : Finset (Fin NPDEENTRY)) : Dir :=
  { pd0 with entry := fun j => if j ∈ W then none else pd0.entry j }

@[simp] theorem Dir.clear_page (pd0 : Dir) (W : Finset (Fin NPDEENTRY)) :
    (pd0.clear W).page = pd0.page := rfl

theorem Dir.clear_entry (pd0 : Dir) (W : Finset (Fin NPDEENTRY)) (j : Fin NPDEENTRY) :
    (pd0.clear W).entry j = if j ∈ W then none else pd0.entry j := rfl

theorem Dir.clear_empty (pd0 : Dir) : pd0.clear ∅ = pd0 := by
  cases pd0
  simp [Dir.clear]

theorem Dir.clear_clear (pd0 : Dir) (W V : Finset (Fin NPDEENTRY)) :
    (pd0.clear W).clear V = pd0.clear (W ∪ V) := by
  simp only [Dir.clear, Finset.mem_union, Dir.mk.injEq, true_and]
  funext j
  by_cases hV : j ∈ V
  · simp [hV]
  · simp [hV]

/-- No table of the directory holds a valid entry. -/
def Dir.Unused (pd0 : Dir) : Prop := ∀ j pt, pd0.entry j = some pt → pt.freePt = true

theorem Dir.Unused.clear (h : pd0.Unused) (W : Finset (Fin NPDEENTRY)) : (pd0.clear W).Unused := by
  intro j pt hj
  rw [Dir.clear_entry] at hj
  split at hj
  · exact nomatch hj
  · exact h j pt hj

/-- The entries of directory `i` at which `exit_range` looks when it walks from `start` to `stop`. -/
def walked (i start stop : ℕ) : Finset (Fin NPDEENTRY) :=
  Finset.univ.filter fun j =>
    start ≤ (i * NPDEENTRY + j) * NPTEENTRY ∧ (i * NPDEENTRY + j) * NPTEENTRY < stop

theorem mem_walked {j : Fin NPDEENTRY} : j ∈ walked i start stop ↔
    start ≤ (i * NPDEENTRY + j) * NPTEENTRY ∧ (i * NPDEENTRY + j) * NPTEENTRY < stop := by
  rw [walked, Finset.mem_filter, and_iff_right (Finset.mem_univ j)]

/-- The first place of a walk, and the others. -/
theorem walked_eq_insert (j : Fin NPDEENTRY) (h : (i * NPDEENTRY + j) * NPTEENTRY < stop) :
    walked i ((i * NPDEENTRY + j) * NPTEENTRY) stop =
      {j} ∪ walked i ((i * NPDEENTRY + j) * NPTEENTRY + NPTEENTRY) stop := by
  ext k
  rw [Finset.mem_union, Finset.mem_singleton, mem_walked, mem_walked, Fin.ext_iff]
  simp only [NPDEENTRY, NPTEENTRY] at *
  omega

theorem notMem_walked_next (j : Fin NPDEENTRY) :
    j ∉ walked i ((i * NPDEENTRY + j) * NPTEENTRY + NPTEENTRY) stop := by
  rw [mem_walked]
  simp only [NPTEENTRY]
  omega

theorem pdx0_start (i : ℕ) (j : Fin NPDEENTRY) : pdx0 ((i * NPDEENTRY + j) * NPTEENTRY) = j := by
  refine Fin.ext ?_
  have hj := j.isLt
  simp only [pdx0, NPDEENTRY, NPTEENTRY] at *
  omega

theorem pdx1_start (i : ℕ) : pdx1 (i * PDPAGES) = i :=
  Nat.mul_div_cancel i (by decide)

/-- A turn of the inner loop. -/
theorem exitTable_spec (hunused : pd0.Unused) (freePd0 : Bool) (s : State) (p : ℕ) :
    ∃ s', exitTable p freePd0 pd0 s =
        (freePd0 && (pd0.entry (pdx0 p)).isSome, pd0.clear {pdx0 p}, s') ∧
      Frees s s' (tableCall (pd0.entry (pdx0 p))) ∧ s'.pgdir = s.pgdir := by
  cases hentry : pd0.entry (pdx0 p) with
  | some pt =>
    have hclear : pd0.set (pdx0 p) none = pd0.clear {pdx0 p} := by
      simp only [Dir.set, Dir.clear, Dir.mk.injEq, true_and]
      funext j
      simp only [Function.update_apply, Finset.mem_singleton]
    refine ⟨freePage (.table pt) s, ?_, frees_freePage s _, rfl⟩
    rw [exitTable, hentry]
    simp only [hunused _ _ hentry, if_true, hclear, Option.isSome_some, Bool.and_true]
  | none =>
    have hclear : pd0.clear {pdx0 p} = pd0 := by
      cases pd0
      simp only [Dir.clear, Dir.mk.injEq, true_and]
      funext j
      split
      · rename_i hj
        rw [Finset.mem_singleton.mp hj]
        exact hentry.symm
      · rfl
    refine ⟨s, ?_, Frees.refl s, rfl⟩
    rw [exitTable, hentry, hclear]
    simp only [Option.isSome_none, Bool.and_false]

/-- Every place of a walk has a table. -/
def Dir.complete (pd0 : Dir) (W : Finset (Fin NPDEENTRY)) : Bool := decide (∀ j ∈ W, (pd0.entry j).isSome)

theorem Dir.complete_iff : pd0.complete W = true ↔ ∀ j ∈ W, (pd0.entry j).isSome := by
  rw [Dir.complete, decide_eq_true_eq]

/-- The calls for the tables at `W`. -/
def Dir.tableCalls (pd0 : Dir) (W : Finset (Fin NPDEENTRY)) : Multiset Released :=
  ∑ j ∈ W, tableCall (pd0.entry j)

theorem Dir.clear_entry_of_notMem {k : Fin NPDEENTRY} (h : k ∉ W) :
    (pd0.clear W).entry k = pd0.entry k := if_neg h

theorem Dir.complete_first {j : Fin NPDEENTRY} (h : j ∉ W) :
    pd0.complete ({j} ∪ W) = ((pd0.entry j).isSome && (pd0.clear {j}).complete W) := by
  have hne : ∀ k ∈ W, k ∉ ({j} : Finset (Fin NPDEENTRY)) := fun k hk hkj =>
    h (Finset.mem_singleton.mp hkj ▸ hk)
  rw [Bool.eq_iff_iff, Bool.and_eq_true, Dir.complete_iff, Dir.complete_iff]
  constructor
  · intro hall
    refine ⟨hall j (Finset.mem_union_left _ (Finset.mem_singleton_self j)), fun k hk => ?_⟩
    rw [Dir.clear_entry_of_notMem (hne k hk)]
    exact hall k (Finset.mem_union_right _ hk)
  · intro hand k hk
    rcases Finset.mem_union.mp hk with hk | hk
    · rw [Finset.mem_singleton.mp hk]
      exact hand.1
    · have := hand.2 k hk
      rwa [Dir.clear_entry_of_notMem (hne k hk)] at this

theorem Dir.tableCalls_first {j : Fin NPDEENTRY} (h : j ∉ W) :
    pd0.tableCalls ({j} ∪ W) = tableCall (pd0.entry j) + (pd0.clear {j}).tableCalls W := by
  have hne : ∀ k ∈ W, k ∉ ({j} : Finset (Fin NPDEENTRY)) := fun k hk hkj =>
    h (Finset.mem_singleton.mp hkj ▸ hk)
  rw [Dir.tableCalls, Finset.sum_union (Finset.disjoint_singleton_left.mpr h), Finset.sum_singleton]
  congr 1
  refine Finset.sum_congr rfl fun k hk => ?_
  rw [Dir.clear_entry_of_notMem (hne k hk)]

/-- **The inner loop of `exit_range`.** -/
theorem exitTables_spec (i stop : ℕ) {k : ℕ} (j : Fin NPDEENTRY) (hunused : pd0.Unused) (freePd0 : Bool)
    (s : State) (hk : NPDEENTRY ≤ j + k) (hstop : (i * NPDEENTRY + j) * NPTEENTRY < stop) :
    ∃ s', exitTables (i * PDPAGES) stop k ((i * NPDEENTRY + j) * NPTEENTRY) freePd0 pd0 s =
        (freePd0 && pd0.complete (walked i ((i * NPDEENTRY + j) * NPTEENTRY) stop),
          pd0.clear (walked i ((i * NPDEENTRY + j) * NPTEENTRY) stop), s') ∧
      Frees s s' (pd0.tableCalls (walked i ((i * NPDEENTRY + j) * NPTEENTRY) stop)) ∧
      s'.pgdir = s.pgdir := by
  induction k generalizing j pd0 freePd0 s with
  | zero => exact absurd (j.isLt.trans_le hk) (Nat.lt_irrefl _)
  | succ k ih =>
    obtain ⟨s₁, hturn, hfrees, hpgdir⟩ := exitTable_spec hunused freePd0 s
      ((i * NPDEENTRY + j) * NPTEENTRY)
    rw [pdx0_start] at hturn hfrees
    have hnot : j ∉ walked i ((i * NPDEENTRY + j) * NPTEENTRY + NPTEENTRY) stop :=
      notMem_walked_next j
    rw [walked_eq_insert j hstop, Dir.complete_first hnot, Dir.tableCalls_first hnot, ← Dir.clear_clear,
      ← Bool.and_assoc, exitTables, hturn]
    dsimp only
    by_cases hnext : (i * NPDEENTRY + j) * NPTEENTRY + NPTEENTRY < i * PDPAGES + PDPAGES ∧
        (i * NPDEENTRY + j) * NPTEENTRY + NPTEENTRY < stop
    · rw [if_pos hnext]
      have hlt : j.val + 1 < NPDEENTRY := by
        simp only [PDPAGES, NPDEENTRY, NPTEENTRY] at *
        omega
      have hstart : (i * NPDEENTRY + j) * NPTEENTRY + NPTEENTRY =
          (i * NPDEENTRY + (⟨j + 1, hlt⟩ : Fin NPDEENTRY)) * NPTEENTRY := by
        simp only [NPDEENTRY, NPTEENTRY]
        omega
      rw [hstart]
      obtain ⟨s', hloop, hfrees', hpgdir'⟩ := ih ⟨j + 1, hlt⟩ (hunused.clear {j})
        (freePd0 && (pd0.entry j).isSome) s₁ (by simp only; omega) (hstart ▸ hnext.2)
      exact ⟨s', hloop, hfrees.trans hfrees', hpgdir'.trans hpgdir⟩
    · rw [if_neg hnext]
      have hempty : walked i ((i * NPDEENTRY + j) * NPTEENTRY + NPTEENTRY) stop = ∅ := by
        refine Finset.eq_empty_of_forall_notMem fun x hx => hnext ?_
        have hx' := mem_walked.mp hx
        have hlt := x.isLt
        simp only [PDPAGES, NPDEENTRY, NPTEENTRY] at *
        omega
      refine ⟨s₁, ?_, ?_, hpgdir⟩
      · rw [hempty, Dir.clear_empty]
        simp [Dir.complete]
      · rw [hempty, Dir.tableCalls, Finset.sum_empty, add_zero]
        exact hfrees

/-! ### A range -/

/-- A directory all of whose walked places have a table, and one at least. -/
def Dir.Full (pd0 : Dir) (W : Finset (Fin NPDEENTRY)) : Prop := W.Nonempty ∧ ∀ j ∈ W, (pd0.entry j).isSome

instance (pd0 : Dir) (W : Finset (Fin NPDEENTRY)) : Decidable (pd0.Full W) :=
  inferInstanceAs (Decidable (_ ∧ _))

/-- What is left of an entry of `pgdir` after a walk over `W`. -/
def exited (W : Finset (Fin NPDEENTRY)) : Option Dir → Option Dir
  | none => none
  | some pd0 => if pd0.Full W then none else some (pd0.clear W)

/-- The calls of `free_page` on a walk over `W`. -/
def exitCalls (W : Finset (Fin NPDEENTRY)) : Option Dir → Multiset Released
  | none => 0
  | some pd0 => pd0.tableCalls W + if pd0.Full W then {.dir (pd0.clear W)} else 0

theorem exited_empty (o : Option Dir) : exited ∅ o = o := by
  cases o with
  | none => rfl
  | some pd0 => rw [exited, if_neg (fun h => Finset.not_nonempty_empty h.1), Dir.clear_empty]

theorem exitCalls_empty (o : Option Dir) : exitCalls ∅ o = 0 := by
  cases o with
  | none => rfl
  | some pd0 =>
    rw [exitCalls, if_neg (fun h => Finset.not_nonempty_empty h.1), Dir.tableCalls, Finset.sum_empty, add_zero]

/-- No table of the address space holds a valid entry. -/
def Unused (s : State) (a : ℕ) : Prop := ∀ i pd0, s.pgdir a i = some pd0 → pd0.Unused

theorem exitDir_some {d : ℕ} {r : Bool × Dir × State} (hd : s.pgdir a (pdx1 p) = some pd0)
    (hloop : exitTables p stop NPDEENTRY d true pd0 s = r) :
    exitDir a stop p d s =
      if r.1 then (freePage (.dir r.2.1) r.2.2).setDir a (pdx1 p) none
      else r.2.2.setDir a (pdx1 p) (some r.2.1) := by
  -- with a name for the inner loop nothing tries to run it
  obtain ⟨loop, hl⟩ : ∃ loop : Dir → Bool × Dir × State,
      ∀ pd, exitTables p stop NPDEENTRY d true pd s = loop pd := ⟨_, fun _ => rfl⟩
  rw [hl] at hloop
  rw [exitDir]
  simp only [hl]
  rw [hd]
  dsimp only
  rw [hloop]
  obtain ⟨freePd0, pd, t⟩ := r
  cases freePd0
  · rfl
  · rfl

theorem exitDir_none {d : ℕ} (hd : s.pgdir a (pdx1 p) = none) : exitDir a stop p d s = s := by
  obtain ⟨loop, hl⟩ : ∃ loop : Dir → Bool × Dir × State,
      ∀ pd, exitTables p stop NPDEENTRY d true pd s = loop pd := ⟨_, fun _ => rfl⟩
  rw [exitDir]
  simp only [hl]
  rw [hd]

/-- **A turn of the outer loop.** -/
theorem exitDir_spec (stop : ℕ) (j : Fin NPDEENTRY) (hunused : Unused s a)
    (hstop : (i * NPDEENTRY + j) * NPTEENTRY < stop) :
    (exitDir a stop (i * PDPAGES) ((i * NPDEENTRY + j) * NPTEENTRY) s).pgdir a =
        Function.update (s.pgdir a) i
          (exited (walked i ((i * NPDEENTRY + j) * NPTEENTRY) stop) (s.pgdir a i)) ∧
      Frees s (exitDir a stop (i * PDPAGES) ((i * NPDEENTRY + j) * NPTEENTRY) s)
        (exitCalls (walked i ((i * NPDEENTRY + j) * NPTEENTRY) stop) (s.pgdir a i)) := by
  have hmem : j ∈ walked i ((i * NPDEENTRY + j) * NPTEENTRY) stop := mem_walked.mpr ⟨Nat.le_refl _, hstop⟩
  have hself : pdx1 (i * PDPAGES) = i := pdx1_start i
  generalize hW : walked i ((i * NPDEENTRY + j) * NPTEENTRY) stop = W at hmem ⊢
  cases hd : s.pgdir a i with
  | none =>
    rw [exitDir_none (by rw [hself, hd])]
    refine ⟨?_, Frees.refl s⟩
    rw [exited, ← hd, Function.update_eq_self]
  | some pd0 =>
    obtain ⟨s₁, hloop, hfrees, hpgdir⟩ := exitTables_spec i stop (k := NPDEENTRY) j (hunused i pd0 hd) true s
      (Nat.le_add_left _ _) hstop
    rw [hW, Bool.true_and] at hloop
    rw [hW] at hfrees
    rw [exitDir_some (by rw [hself, hd]) hloop, hself, exited, exitCalls]
    by_cases hfull : pd0.Full W
    · rw [if_pos (Dir.complete_iff.mpr hfull.2), if_pos hfull, if_pos hfull]
      refine ⟨?_, (hfrees.trans (frees_freePage s₁ (.dir (pd0.clear W)))).setDir a i none⟩
      show Function.update s₁.pgdir a (Function.update (s₁.pgdir a) i none) a = _
      rw [Function.update_self, hpgdir]
    · rw [if_neg fun hall => hfull ⟨⟨j, hmem⟩, Dir.complete_iff.mp hall⟩, if_neg hfull, if_neg hfull, add_zero]
      refine ⟨?_, hfrees.setDir a i (some (pd0.clear W))⟩
      show Function.update s₁.pgdir a (Function.update (s₁.pgdir a) i (some (pd0.clear W))) a = _
      rw [Function.update_self, hpgdir]

/-- The walk through the other directories is the one that starts at the next directory. -/
theorem walked_of_ne {n : ℕ} (j : Fin NPDEENTRY) (hn : n ≠ i) :
    walked n ((i * NPDEENTRY + j) * NPTEENTRY) stop = walked n ((i + 1) * PDPAGES) stop := by
  ext x
  have hj := j.isLt
  have hx := x.isLt
  rw [mem_walked, mem_walked]
  simp only [PDPAGES, NPDEENTRY, NPTEENTRY] at *
  omega

theorem walked_eq_empty {d : ℕ} (h : stop ≤ d ∨ (i + 1) * PDPAGES ≤ d ∨ stop ≤ i * PDPAGES) :
    walked i d stop = ∅ := by
  refine Finset.eq_empty_of_forall_notMem fun x hx => ?_
  have hx' := mem_walked.mp hx
  have hlt := x.isLt
  simp only [PDPAGES, NPDEENTRY, NPTEENTRY] at *
  omega

theorem Unused.exited (h : Unused s a) {W : ℕ → Finset (Fin NPDEENTRY)}
    (hpgdir : ∀ n, s'.pgdir a n = exited (W n) (s.pgdir a n)) : Unused s' a := by
  intro n pd0 hd
  rw [hpgdir] at hd
  cases hn : s.pgdir a n with
  | none =>
    rw [hn] at hd
    cases hd
  | some pd =>
    rw [hn, Paging.exited] at hd
    split at hd
    · cases hd
    · obtain rfl := Option.some.inj hd
      exact (h n pd hn).clear (W n)

theorem exitLoop_succ (a stop k d1start d0start : ℕ) (s : State) :
    exitLoop a stop (k + 1) d1start d0start s =
      if d1start + PDPAGES < stop then
        exitLoop a stop k (d1start + PDPAGES) (d1start + PDPAGES) (exitDir a stop d1start d0start s)
      else exitDir a stop d1start d0start s := rfl

/-- **The outer loop of `exit_range`.** -/
theorem exitLoop_spec (a stop : ℕ) {N : ℕ} (hN : stop ≤ N * PDPAGES) (k : ℕ) (j : Fin NPDEENTRY)
    (hunused : Unused s a) (hk : stop ≤ (i + k) * PDPAGES)
    (hstop : (i * NPDEENTRY + j) * NPTEENTRY < stop) :
    (∀ n, (exitLoop a stop k (i * PDPAGES) ((i * NPDEENTRY + j) * NPTEENTRY) s).pgdir a n =
        exited (walked n ((i * NPDEENTRY + j) * NPTEENTRY) stop) (s.pgdir a n)) ∧
      Frees s (exitLoop a stop k (i * PDPAGES) ((i * NPDEENTRY + j) * NPTEENTRY) s)
        (∑ n ∈ Finset.range N,
          exitCalls (walked n ((i * NPDEENTRY + j) * NPTEENTRY) stop) (s.pgdir a n)) := by
  induction k generalizing i j s with
  | zero =>
    simp only [PDPAGES, NPDEENTRY, NPTEENTRY] at *
    omega
  | succ k ih =>
    obtain ⟨hpgdir, hfrees⟩ := exitDir_spec stop j hunused hstop
    have hi : i ∈ Finset.range N := by
      rw [Finset.mem_range]
      simp only [PDPAGES, NPDEENTRY, NPTEENTRY] at *
      omega
    rw [exitLoop_succ, ← Finset.add_sum_erase _ _ hi]
    generalize exitDir a stop (i * PDPAGES) ((i * NPDEENTRY + j) * NPTEENTRY) s = s₁ at hpgdir hfrees ⊢
    have hself : s₁.pgdir a i =
        exited (walked i ((i * NPDEENTRY + j) * NPTEENTRY) stop) (s.pgdir a i) := by
      rw [hpgdir, Function.update_self]
    have hother : ∀ n, n ≠ i → s₁.pgdir a n = s.pgdir a n := fun n hn => by
      rw [hpgdir, Function.update_of_ne hn]
    have hnext : i * PDPAGES + PDPAGES = (i + 1) * PDPAGES := (Nat.succ_mul i PDPAGES).symm
    rw [hnext]
    by_cases hlt : (i + 1) * PDPAGES < stop
    · rw [if_pos hlt]
      have hpos : 0 < NPDEENTRY := by decide
      have hzero : (i + 1) * PDPAGES = ((i + 1) * NPDEENTRY + (⟨0, hpos⟩ : Fin NPDEENTRY)) * NPTEENTRY := by
        simp only [PDPAGES, NPDEENTRY, NPTEENTRY]
        omega
      have hunused₁ : Unused s₁ a := by
        refine hunused.exited (W := fun n =>
          if n = i then walked i ((i * NPDEENTRY + j) * NPTEENTRY) stop else ∅) fun n => ?_
        by_cases hn : n = i
        · rw [if_pos hn, hn, hself]
        · rw [if_neg hn, hother n hn, exited_empty]
      have hk' : stop ≤ (i + 1 + k) * PDPAGES := by
        rw [Nat.add_assoc, Nat.add_comm 1]
        exact hk
      obtain ⟨hp, hf⟩ := ih ⟨0, hpos⟩ hunused₁ hk' (hzero ▸ hlt)
      rw [← hzero] at hp hf
      have hself' : walked i ((i + 1) * PDPAGES) stop = ∅ := walked_eq_empty (.inr (.inl le_rfl))
      constructor
      · intro n
        rw [hp]
        by_cases hn : n = i
        · rw [hn, hself', exited_empty, hself]
        · rw [walked_of_ne j hn, hother n hn]
      · have hsum : ∑ n ∈ Finset.range N, exitCalls (walked n ((i + 1) * PDPAGES) stop) (s₁.pgdir a n) =
            ∑ n ∈ (Finset.range N).erase i,
              exitCalls (walked n ((i * NPDEENTRY + j) * NPTEENTRY) stop) (s.pgdir a n) := by
          rw [← Finset.sum_erase (Finset.range N) (a := i) (by rw [hself', exitCalls_empty])]
          refine Finset.sum_congr rfl fun n hn => ?_
          rw [walked_of_ne j (Finset.ne_of_mem_erase hn), hother n (Finset.ne_of_mem_erase hn)]
        rw [hsum] at hf
        exact hfrees.trans hf
    · rw [if_neg hlt]
      have hempty : ∀ n, n ≠ i → walked n ((i * NPDEENTRY + j) * NPTEENTRY) stop = ∅ := fun n hn => by
        rw [walked_of_ne j hn, walked_eq_empty (.inl (Nat.le_of_not_lt hlt))]
      constructor
      · intro n
        by_cases hn : n = i
        · rw [hn, hself]
        · rw [hother n hn, hempty n hn, exited_empty]
      · rw [Finset.sum_eq_zero fun n hn => by rw [hempty n (Finset.ne_of_mem_erase hn), exitCalls_empty],
          add_zero]
        exact hfrees

/-- The directories below `USERTOP`. -/
def USERDIRS : ℕ := USERTOP / PGSIZE / PDPAGES

/-- The entries of directory `i` at which `exit_range` looks. -/
def visited (start stop i : ℕ) : Finset (Fin NPDEENTRY) :=
  walked i (start / PGSIZE / NPTEENTRY * NPTEENTRY) (stop / PGSIZE)

/-- **`exit_range`**, when no table holds a valid entry. -/
theorem exitRange_spec (hr : UserRange start stop) (hunused : Unused s a) :
    ∃ s', exitRange a start stop s = some s' ∧
      (∀ i, s'.pgdir a i = exited (visited start stop i) (s.pgdir a i)) ∧
      Frees s s' (∑ i ∈ Finset.range USERDIRS, exitCalls (visited start stop i) (s.pgdir a i)) := by
  refine ⟨_, if_pos hr, ?_⟩
  obtain ⟨⟨h₁, h₂⟩, -, hlt, htop⟩ := hr
  have hd : start / PGSIZE / NPTEENTRY * NPTEENTRY =
      (start / PGSIZE / PDPAGES * NPDEENTRY + (pdx0 (start / PGSIZE) : ℕ)) * NPTEENTRY := by
    simp only [pdx0, PDPAGES, NPDEENTRY, NPTEENTRY]
    omega
  have hN : stop / PGSIZE ≤ USERDIRS * PDPAGES := by
    rw [show USERDIRS * PDPAGES = USERTOP / PGSIZE from rfl]
    exact Nat.div_le_div_right htop
  have hk : stop / PGSIZE ≤ (start / PGSIZE / PDPAGES + (stop / PGSIZE - start / PGSIZE)) * PDPAGES := by
    simp only [PDPAGES, NPDEENTRY, NPTEENTRY, PGSIZE] at h₁ h₂ ⊢
    omega
  have hstop : start / PGSIZE / NPTEENTRY * NPTEENTRY < stop / PGSIZE := by
    simp only [NPTEENTRY, PGSIZE] at h₁ h₂ ⊢
    omega
  simp only [visited]
  rw [hd] at hstop ⊢
  exact exitLoop_spec a _ hN _ _ hunused hk hstop

end Ucore.Paging
