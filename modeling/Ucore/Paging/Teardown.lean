import Ucore.Paging.Duplicate
import Ucore.Paging.Exit

/-!
# `exit_mmap`

`exit_mmap` unmaps all segments and then walks over the tables of each of them.  Segments can share a
directory, and a directory goes with the first walk that meets a table at each of its places.

* `reached` and `closed` say, of one directory and the walks over it, which tables are given back and
  whether the directory is.
* `Node` is a page that holds a part of the page tables; `Apart` says that no page holds two.
* `exitMmap_exact` puts these together: no page is freed twice, and all pages come back if and only if
  every directory is `Dir.Closed`.
-/

namespace Ucore.Paging

open Cow (NPTEENTRY PGSIZE PTE_V Pte USERBASE USERTOP Vma has)

/-- Places of one directory. -/
abbrev Places := Finset (Fin NPDEENTRY)

variable {s s' s'' : State} {a b f i p q : ℕ} {pd0 : Dir} {pt : Table} {W V : Places} {Ws Us : List Places}

/-! ### Several walks over one directory -/

/-- An entry of `pgdir` after the walks `Ws`. -/
def exitedAll : List Places → Option Dir → Option Dir
  | [], o => o
  | W :: Ws, o => exitedAll Ws (exited W o)

/-- The calls of `free_page` in the walks `Ws`. -/
def exitAllCalls : List Places → Option Dir → Multiset Released
  | [], _ => 0
  | W :: Ws, o => exitCalls W o + exitAllCalls Ws (exited W o)

/-- The places at which tables are given back in the walks `Ws`. -/
def Dir.reached : Dir → List Places → Places
  | _, [] => ∅
  | pd0, W :: Ws => if pd0.Full W then W else W ∪ (pd0.clear W).reached Ws

/-- One of the walks `Ws` gives the directory back. -/
def Dir.freed : Dir → List Places → Bool
  | _, [] => false
  | pd0, W :: Ws => if pd0.Full W then true else (pd0.clear W).freed Ws

theorem exitAllCalls_none (Ws : List Places) : exitAllCalls Ws none = 0 := by
  induction Ws with
  | nil => rfl
  | cons W Ws ih =>
    rw [exitAllCalls, exited, ih, add_zero]
    rfl

theorem Dir.tableCalls_union (pd0 : Dir) (W V : Places) :
    pd0.tableCalls (W ∪ V) = pd0.tableCalls W + (pd0.clear W).tableCalls V := by
  have hclear : (pd0.clear W).tableCalls V = pd0.tableCalls (V \ W) := by
    have hsplit : V = (V \ W) ∪ (V ∩ W) := (Finset.sdiff_union_inter V W).symm
    have hzero : ∑ j ∈ V ∩ W, tableCall ((pd0.clear W).entry j) = 0 := by
      refine Finset.sum_eq_zero fun j hj => ?_
      rw [Dir.clear_entry, if_pos (Finset.mem_inter.mp hj).2]
      rfl
    rw [Dir.tableCalls, hsplit, Finset.sum_union (Finset.disjoint_sdiff_inter V W), hzero, add_zero,
      ← hsplit, Dir.tableCalls]
    refine Finset.sum_congr rfl fun j hj => ?_
    rw [Dir.clear_entry_of_notMem (Finset.mem_sdiff.mp hj).2]
  have hunion : W ∪ V = W ∪ V \ W := Finset.union_sdiff_self_eq_union.symm
  rw [hclear, hunion, Dir.tableCalls, Finset.sum_union Finset.disjoint_sdiff]
  rfl

/-- **The calls of all walks.** -/
theorem exitAllCalls_some (Ws : List Places) (pd0 : Dir) :
    exitAllCalls Ws (some pd0) = pd0.tableCalls (pd0.reached Ws) +
      if pd0.freed Ws then {.dir (pd0.clear (pd0.reached Ws))} else 0 := by
  induction Ws generalizing pd0 with
  | nil => rfl
  | cons W Ws ih =>
    rw [exitAllCalls, exitCalls, exited, Dir.reached, Dir.freed]
    by_cases hfull : pd0.Full W
    · simp only [if_pos hfull, if_true, exitAllCalls_none, add_zero]
    · simp only [if_neg hfull, add_zero]
      rw [ih, Dir.tableCalls_union, Dir.clear_clear, add_assoc]

/-! ### Which directories go -/

/-- The walk over `W` after those over `Us` meets a table at each of its places. -/
def Dir.FullAfter (pd0 : Dir) (Us : List Places) (W : Places) : Prop :=
  W.Nonempty ∧ ∀ j ∈ W, (pd0.entry j).isSome ∧ ∀ U ∈ Us, j ∉ U

theorem Dir.fullAfter_nil : pd0.FullAfter [] W ↔ pd0.Full W := by
  refine and_congr_right fun _ => forall₂_congr fun j _ => and_iff_left ?_
  exact nofun

theorem Dir.fullAfter_cons : pd0.FullAfter (V :: Us) W ↔ (pd0.clear V).FullAfter Us W := by
  refine and_congr_right fun _ => forall₂_congr fun j _ => ?_
  rw [Dir.clear_entry, List.forall_mem_cons]
  by_cases hj : j ∈ V
  · rw [if_pos hj]
    exact iff_of_false (fun h => h.2.1 hj) fun h => Bool.false_ne_true h.1
  · rw [if_neg hj, and_iff_right hj]

/-- The walks over the directory give it back, and no table is left in it. -/
structure Dir.Closed (pd0 : Dir) (Ws : List Places) : Prop where
  /-- some walk has a table at each of its places -/
  some : ∃ Us W Vs, Ws = Us ++ W :: Vs ∧ pd0.FullAfter Us W
  /-- each such walk and those before it come to all tables -/
  all : ∀ Us W Vs, Ws = Us ++ W :: Vs → pd0.FullAfter Us W →
    ∀ j, (pd0.entry j).isSome → ∃ U ∈ Us ++ [W], j ∈ U

theorem Dir.freed_iff (Ws : List Places) (pd0 : Dir) :
    pd0.freed Ws = true ↔ ∃ Us W Vs, Ws = Us ++ W :: Vs ∧ pd0.FullAfter Us W := by
  induction Ws generalizing pd0 with
  | nil =>
    refine iff_of_false Bool.false_ne_true ?_
    rintro ⟨Us, W, Vs, heq, -⟩
    exact List.cons_ne_nil _ _ (List.append_eq_nil_iff.mp heq.symm).2
  | cons V Ws ih =>
    rw [Dir.freed]
    by_cases hfull : pd0.Full V
    · rw [if_pos hfull]
      exact iff_of_true rfl ⟨[], V, Ws, rfl, Dir.fullAfter_nil.mpr hfull⟩
    · rw [if_neg hfull, ih]
      constructor
      · rintro ⟨Us, W, Vs, rfl, h⟩
        exact ⟨V :: Us, W, Vs, rfl, Dir.fullAfter_cons.mpr h⟩
      · rintro ⟨Us, W, Vs, heq, h⟩
        cases Us with
        | nil =>
          obtain ⟨rfl, -⟩ := List.cons.inj heq
          exact absurd (Dir.fullAfter_nil.mp h) hfull
        | cons U Us =>
          obtain ⟨rfl, rfl⟩ := List.cons.inj heq
          exact ⟨Us, W, Vs, rfl, Dir.fullAfter_cons.mp h⟩

/-- **When all pages of a directory come back.** -/
theorem Dir.closed_iff (Ws : List Places) (pd0 : Dir) :
    pd0.Closed Ws ↔ pd0.freed Ws = true ∧ ∀ j, (pd0.entry j).isSome → j ∈ pd0.reached Ws := by
  induction Ws generalizing pd0 with
  | nil =>
    refine iff_of_false (fun h => ?_) fun h => Bool.false_ne_true h.1
    exact Bool.false_ne_true ((Dir.freed_iff [] pd0).mpr h.some)
  | cons V Ws ih =>
    rw [Dir.freed, Dir.reached]
    by_cases hfull : pd0.Full V
    · rw [if_pos hfull, if_pos hfull, and_iff_right rfl]
      constructor
      · intro h j hj
        obtain ⟨U, hU, hjU⟩ := h.all [] V Ws rfl (Dir.fullAfter_nil.mpr hfull) j hj
        rwa [List.mem_singleton.mp hU] at hjU
      · intro h
        refine ⟨⟨[], V, Ws, rfl, Dir.fullAfter_nil.mpr hfull⟩, fun Us W Vs heq _ j hj => ⟨V, ?_, h j hj⟩⟩
        cases Us with
        | nil =>
          obtain ⟨rfl, -⟩ := List.cons.inj heq
          exact List.mem_singleton_self V
        | cons U Us =>
          obtain ⟨rfl, -⟩ := List.cons.inj heq
          exact List.mem_cons_self
    · rw [if_neg hfull, if_neg hfull]
      have hstep : pd0.Closed (V :: Ws) ↔ (pd0.clear V).Closed Ws := by
        constructor
        · intro h
          refine ⟨?_, fun Us W Vs heq hafter j hj => ?_⟩
          · have hfreed := (Dir.freed_iff _ pd0).mpr h.some
            rw [Dir.freed, if_neg hfull] at hfreed
            exact (Dir.freed_iff _ _).mp hfreed
          · have hV : j ∉ V := fun hmem => by
              rw [Dir.clear_entry, if_pos hmem] at hj
              exact Bool.false_ne_true hj
            rw [Dir.clear_entry_of_notMem hV] at hj
            obtain ⟨U, hU, hjU⟩ := h.all (V :: Us) W Vs (by rw [heq]; rfl) (Dir.fullAfter_cons.mpr hafter) j hj
            rcases List.mem_cons.mp hU with rfl | hU
            · exact absurd hjU hV
            · exact ⟨U, hU, hjU⟩
        · intro h
          have hsome := (Dir.freed_iff _ _).mpr h.some
          refine ⟨(Dir.freed_iff _ _).mp (by rwa [Dir.freed, if_neg hfull]), fun Us W Vs heq hafter j hj => ?_⟩
          cases Us with
          | nil =>
            obtain ⟨rfl, -⟩ := List.cons.inj heq
            exact absurd (Dir.fullAfter_nil.mp hafter) hfull
          | cons U Us =>
            obtain ⟨rfl, rfl⟩ := List.cons.inj heq
            by_cases hV : j ∈ V
            · exact ⟨V, List.mem_cons_self, hV⟩
            · obtain ⟨U', hU', hjU'⟩ := h.all Us W Vs rfl (Dir.fullAfter_cons.mp hafter) j
                (by rwa [Dir.clear_entry_of_notMem hV])
              exact ⟨U', List.mem_cons_of_mem V hU', hjU'⟩
      rw [hstep, ih]
      refine and_congr_right fun _ => forall_congr' fun j => ?_
      rw [Finset.mem_union]
      by_cases hV : j ∈ V
      · rw [Dir.clear_entry, if_pos hV]
        exact iff_of_true (fun h => absurd h Bool.false_ne_true) fun _ => Or.inl hV
      · rw [Dir.clear_entry_of_notMem hV]
        simp only [hV, false_or]

/-- Two segments 2 MB and 8 MB from the start are below one directory.  It goes with the first walk, and the
table of the second segment is lost. -/
theorem Dir.not_closed_of_full {k : Fin NPDEENTRY} (hfull : pd0.Full W) (hk : (pd0.entry k).isSome)
    (hnot : k ∉ W) : ¬ pd0.Closed (W :: Ws) := by
  rw [Dir.closed_iff, Dir.reached, if_pos hfull]
  exact fun h => hnot (h.2 k hk)

theorem Dir.Closed.congr {pd : Dir} (h : pd0.Closed Ws)
    (hsame : ∀ j, (pd.entry j).isSome = (pd0.entry j).isSome) : pd.Closed Ws := by
  have hafter : ∀ Us W, pd.FullAfter Us W ↔ pd0.FullAfter Us W := fun Us W => by
    simp only [Dir.FullAfter, hsame]
  refine ⟨?_, fun Us W Vs heq hfull j hj => h.all Us W Vs heq ((hafter Us W).mp hfull) j ?_⟩
  · obtain ⟨Us, W, Vs, heq, hfull⟩ := h.some
    exact ⟨Us, W, Vs, heq, (hafter Us W).mpr hfull⟩
  · rwa [hsame] at hj

/-! ### All segments -/

/-- The walks over directory `i`, one for each segment. -/
def walks (vmas : List Vma) (i : ℕ) : List Places := vmas.map fun v => visited v.vmStart v.vmEnd i

/-- The pages of a segment. -/
def pagesOf (v : Vma) : Finset ℕ := Finset.Ico (v.vmStart / PGSIZE) (v.vmEnd / PGSIZE)

/-- The pages of all segments. -/
def allPages : List Vma → Finset ℕ
  | [] => ∅
  | v :: vmas => pagesOf v ∪ allPages vmas

variable {vmas : List Vma} {P Q : Finset ℕ}

theorem mem_allPages : p ∈ allPages vmas ↔ ∃ v ∈ vmas, p ∈ pagesOf v := by
  induction vmas with
  | nil => exact iff_of_false (Finset.notMem_empty p) (by simp)
  | cons v vmas ih => rw [allPages, Finset.mem_union, ih, List.exists_mem_cons_iff]

theorem disjoint_allPages (h : ∀ w ∈ vmas, Disjoint P (pagesOf w)) : Disjoint P (allPages vmas) := by
  rw [Finset.disjoint_left]
  intro p hp hall
  obtain ⟨w, hw, hpw⟩ := mem_allPages.mp hall
  exact Finset.disjoint_left.mp (h w hw) hp hpw

/-- What `exit_range` may do, whatever the tables hold: pages come back, and only `pgdir` of `a` changes. -/
structure Releases (s s' : State) (a : ℕ) : Prop where
  others : ∀ b, b ≠ a → s'.pgdir b = s.pgdir b
  data : s'.data = s.data
  free : s.free ⊆ s'.free
  ref : ∀ f, s'.ref f = s.ref f ∨ f ∈ s'.free ∧ s'.ref f = 0
  fresh : ∀ f ∈ s'.free, f ∈ s.free ∨ s'.ref f = 0

theorem Releases.refl (s : State) (a : ℕ) : Releases s s a :=
  ⟨fun _ _ => rfl, rfl, subset_rfl, fun _ => Or.inl rfl, fun _ hf => Or.inl hf⟩

theorem Releases.trans (h₁ : Releases s s' a) (h₂ : Releases s' s'' a) : Releases s s'' a := by
  refine ⟨fun b hb => (h₂.others b hb).trans (h₁.others b hb), h₂.data.trans h₁.data, h₁.free.trans h₂.free,
    fun f => ?_, fun f hf => ?_⟩
  · rcases h₂.ref f with h | h
    · rcases h₁.ref f with h' | ⟨hfree, h'⟩
      · exact Or.inl (h.trans h')
      · exact Or.inr ⟨h₂.free hfree, h.trans h'⟩
    · exact Or.inr h
  · rcases h₂.fresh f hf with hf | h
    · refine (h₁.fresh f hf).imp_right fun h => ?_
      rcases h₂.ref f with h' | ⟨-, h'⟩
      · exact h'.trans h
      · exact h'
    · exact Or.inr h

theorem releases_freePage (s : State) (x : Released) (a : ℕ) : Releases s (freePage x s) a := by
  have hself : (freePage x s).ref x.page = 0 := Function.update_self _ _ _
  refine ⟨fun _ _ => rfl, rfl, Finset.subset_insert _ _, fun f => ?_, fun f hf => ?_⟩
  · by_cases hf : f = x.page
    · exact Or.inr ⟨Finset.mem_insert.mpr (Or.inl hf), hf ▸ hself⟩
    · exact Or.inl (Function.update_of_ne hf _ _)
  · rcases Finset.mem_insert.mp hf with hf | hf
    · exact Or.inr (hf ▸ hself)
    · exact Or.inl hf

theorem Releases.setDir (h : Releases s s' a) (i : ℕ) (o : Option Dir) : Releases s (s'.setDir a i o) a := by
  refine ⟨fun b hb => ?_, h.data, h.free, h.ref, h.fresh⟩
  exact (Function.update_of_ne hb _ _).trans (h.others b hb)

theorem exitTable_releases (d0start : ℕ) (freePd0 : Bool) (pd0 : Dir) (s : State) (a : ℕ) :
    Releases s (exitTable d0start freePd0 pd0 s).2.2 a := by
  rw [exitTable]
  split
  · split
    · exact releases_freePage s _ a
    · exact Releases.refl s a
  · exact Releases.refl s a

theorem exitTables_succ (d1start stop k d0start : ℕ) (freePd0 : Bool) (pd0 : Dir) (s : State) :
    exitTables d1start stop (k + 1) d0start freePd0 pd0 s =
      let r := exitTable d0start freePd0 pd0 s
      if d0start + NPTEENTRY < d1start + PDPAGES ∧ d0start + NPTEENTRY < stop then
        exitTables d1start stop k (d0start + NPTEENTRY) r.1 r.2.1 r.2.2
      else r := rfl

theorem exitTables_releases (d1start stop k d0start : ℕ) (freePd0 : Bool) (pd0 : Dir) (s : State) (a : ℕ) :
    Releases s (exitTables d1start stop k d0start freePd0 pd0 s).2.2 a := by
  induction k generalizing d0start freePd0 pd0 s with
  | zero => exact Releases.refl s a
  | succ k ih =>
    rw [exitTables_succ]
    have hone := exitTable_releases d0start freePd0 pd0 s a
    dsimp only
    split
    · exact hone.trans (ih _ _ _ _)
    · exact hone

theorem exitDir_releases (a stop d1start d0start : ℕ) (s : State) :
    Releases s (exitDir a stop d1start d0start s) a := by
  cases hd : s.pgdir a (pdx1 d1start) with
  | none =>
    rw [exitDir_none hd]
    exact Releases.refl s a
  | some pd0 =>
    have hloop := exitTables_releases d1start stop NPDEENTRY d0start true pd0 s a
    generalize hr : exitTables d1start stop NPDEENTRY d0start true pd0 s = r at hloop
    rw [exitDir_some hd hr]
    split
    · exact (hloop.trans (releases_freePage _ _ a)).setDir _ _
    · exact hloop.setDir _ _

theorem exitLoop_releases (a stop k d1start d0start : ℕ) (s : State) :
    Releases s (exitLoop a stop k d1start d0start s) a := by
  induction k generalizing d1start d0start s with
  | zero => exact Releases.refl s a
  | succ k ih =>
    rw [exitLoop_succ]
    have hone := exitDir_releases a stop d1start d0start s
    split
    · exact hone.trans (ih _ _ _)
    · exact hone

theorem exitRange_releases {start stop : ℕ} (h : exitRange a start stop s = some s') : Releases s s' a := by
  rw [exitRange] at h
  split at h
  · rw [← Option.some.inj h]
    exact exitLoop_releases a _ _ _ _ s
  · exact nomatch h

/-- The second loop of `exit_mmap`. -/
theorem exitAll_spec (hr : ∀ v ∈ vmas, UserRange v.vmStart v.vmEnd) (hunused : Unused s a) :
    ∃ s', vmas.foldlM (fun s v => exitRange a v.vmStart v.vmEnd s) s = some s' ∧
      (∀ i, s'.pgdir a i = exitedAll (walks vmas i) (s.pgdir a i)) ∧
      Frees s s' (∑ i ∈ Finset.range USERDIRS, exitAllCalls (walks vmas i) (s.pgdir a i)) ∧
      Releases s s' a := by
  induction vmas generalizing s with
  | nil =>
    have hzero : ∑ i ∈ Finset.range USERDIRS, exitAllCalls (walks [] i) (s.pgdir a i) = 0 :=
      Finset.sum_eq_zero fun _ _ => rfl
    exact ⟨s, rfl, fun _ => rfl, hzero ▸ Frees.refl s, Releases.refl s a⟩
  | cons v vmas ih =>
    obtain ⟨s₁, hrun, hpgdir, hfrees⟩ := exitRange_spec (hr v List.mem_cons_self) hunused
    obtain ⟨s', hrun', hpgdir', hfrees', hreleases⟩ := ih (fun w hw => hr w (List.mem_cons_of_mem v hw))
      (hunused.exited hpgdir)
    refine ⟨s', ?_, fun i => ?_, ?_, (exitRange_releases hrun).trans hreleases⟩
    · rw [List.foldlM_cons, hrun]
      exact hrun'
    · rw [hpgdir', hpgdir]
      rfl
    · have hsum : ∑ i ∈ Finset.range USERDIRS, exitAllCalls (walks (v :: vmas) i) (s.pgdir a i) =
          ∑ i ∈ Finset.range USERDIRS, exitCalls (visited v.vmStart v.vmEnd i) (s.pgdir a i) +
            ∑ i ∈ Finset.range USERDIRS, exitAllCalls (walks vmas i) (s₁.pgdir a i) := by
        rw [← Finset.sum_add_distrib]
        refine Finset.sum_congr rfl fun i _ => ?_
        rw [hpgdir]
        rfl
      rw [hsum]
      exact hfrees.trans hfrees'

/-! ### The frames -/

/-- On the way from `s` to `s'` exactly the frames that have lost their last reference with `P` are
freed, each once. -/
def FreedOnce (s s' : State) (a : ℕ) (P : Finset ℕ) : Prop :=
  ∃ fs : List ℕ, s'.freed = fs.map Released.user ++ s.freed ∧ fs.Nodup ∧
    ∀ f, f ∈ fs ↔ (mappingsOf s a P f).Nonempty ∧ s'.ref f = 0

theorem FreedOnce.of_none (h : ∀ p ∈ P, mapping s a p = none) : FreedOnce s s a P := by
  refine ⟨[], rfl, List.nodup_nil, fun f => iff_of_false List.not_mem_nil ?_⟩
  rintro ⟨⟨p, hp⟩, -⟩
  obtain ⟨hmem, hf⟩ := mem_mappingsOf.mp hp
  rw [h p hmem] at hf
  exact nomatch hf

theorem FreedOnce.congr (h : FreedOnce s s' a P)
    (hPQ : ∀ p, mapping s a p ≠ none → (p ∈ P ↔ p ∈ Q)) : FreedOnce s s' a Q := by
  have heq : ∀ f, mappingsOf s a Q f = mappingsOf s a P f := by
    intro f
    ext p
    rw [mem_mappingsOf, mem_mappingsOf]
    refine and_congr_left fun hf => (hPQ p ?_).symm
    rw [hf]
    exact nofun
  obtain ⟨fs, hfreed, hnodup, hmem⟩ := h
  refine ⟨fs, hfreed, hnodup, fun f => ?_⟩
  rw [hmem, heq]

/-- **First `P`, then `Q`.** -/
theorem FreedOnce.trans (h₁ : FreedOnce s s' a P) (h₂ : FreedOnce s' s'' a Q) (hP : Unmapped s s' a P)
    (hQ : Unmapped s' s'' a Q) (hPQ : Disjoint P Q) (hc : Covered s a (P ∪ Q)) :
    FreedOnce s s'' a (P ∪ Q) := by
  obtain ⟨fs, hfreed, hnodup, hmem⟩ := h₁
  obtain ⟨gs, hfreed', hnodup', hmem'⟩ := h₂
  have hsame := hP.mappingsOf_eq hPQ
  have hcov := hP.covered hPQ hc
  -- a frame without references after `P` has no page in `Q`
  have hzero : ∀ f, s'.ref f = 0 → mappingsOf s a Q f = ∅ := by
    intro f hf
    have hle := hcov f
    rw [hf, hsame] at hle
    exact Finset.card_eq_zero.mp (by omega)
  refine ⟨gs ++ fs, by rw [hfreed', hfreed, List.map_append, List.append_assoc], ?_, fun f => ?_⟩
  · refine List.Nodup.append hnodup' hnodup fun f hg hf => ?_
    obtain ⟨hne, -⟩ := (hmem' f).mp hg
    rw [hsame, hzero f ((hmem f).mp hf).2] at hne
    exact Finset.not_nonempty_empty hne
  · rw [List.mem_append, hmem', hmem, mappingsOf_union, Finset.union_nonempty, hsame]
    have href := hQ.ref f
    rw [hsame] at href
    by_cases hf : s'.ref f = 0
    · rw [hzero f hf] at href ⊢
      rw [Finset.card_empty, Nat.cast_zero, sub_zero, hf] at href
      simp [hf, href]
    · by_cases hne : (mappingsOf s a Q f).Nonempty
      · simp [hf, hne]
      · rw [Finset.not_nonempty_iff_eq_empty.mp hne] at href ⊢
        rw [Finset.card_empty, Nat.cast_zero, sub_zero] at href
        simp [hf, href]

theorem pageRemovePte_freedOnce (s : State) (a p : ℕ) : FreedOnce s (pageRemovePte a p s) a {p} := by
  cases hx : mapping s a p with
  | none =>
    have heq : pageRemovePte a p s = s := by
      rw [pageRemovePte, mapping_eq_none.mp hx]
      rfl
    rw [heq]
    refine FreedOnce.of_none fun q hq => ?_
    rw [Finset.mem_singleton.mp hq, hx]
  | some f =>
    obtain ⟨hv, hppn⟩ := mapping_eq_some.mp hx
    have hdec : (pageRefDec f s).ref f = s.ref f - 1 := Function.update_self _ _ _
    have hsingle : ∀ g, (mappingsOf s a {p} g).Nonempty ↔ g = f := by
      intro g
      rw [mappingsOf_singleton, hx]
      by_cases hg : f = g
      · rw [if_pos (congrArg some hg)]
        exact iff_of_true (Finset.singleton_nonempty p) hg.symm
      · rw [if_neg fun hc => hg (Option.some.inj hc)]
        exact iff_of_false Finset.not_nonempty_empty fun hc => hg hc.symm
    have href : (pageRemovePte a p s).ref f = s.ref f - 1 := by
      rw [(pageRemovePte_spec s a p).ref, mappingsOf_singleton, if_pos hx, Finset.card_singleton,
        Nat.cast_one]
    by_cases h0 : s.ref f - 1 = 0
    · refine ⟨[f], ?_, List.nodup_singleton f, fun g => ?_⟩
      · simp only [pageRemovePte, hv, if_true, hppn, hdec, h0, setPte_freed]
        rfl
      · rw [List.mem_singleton, hsingle]
        refine (and_iff_left_of_imp ?_).symm
        rintro rfl
        rw [href, h0]
    · refine ⟨[], ?_, List.nodup_nil, fun g => ?_⟩
      · simp only [pageRemovePte, hv, if_true, hppn, hdec, if_neg h0, setPte_freed]
        rfl
      · rw [hsingle]
        refine iff_of_false List.not_mem_nil ?_
        rintro ⟨rfl, hg⟩
        exact h0 (href ▸ hg)

theorem unmapLoop_freedOnce (a stop : ℕ) : ∀ k start s, stop ≤ start + k →
    Covered s a (Finset.Ico start stop) →
    FreedOnce s (unmapLoop a stop k start s) a (Finset.Ico start stop) := by
  intro k
  induction k with
  | zero =>
    intro start s hk _
    rw [Finset.Ico_eq_empty (by omega)]
    exact FreedOnce.of_none nofun
  | succ k ih =>
    intro start s hk hc
    rw [unmapLoop]
    by_cases hlt : start < stop
    swap
    · rw [if_neg hlt, Finset.Ico_eq_empty hlt]
      exact FreedOnce.of_none nofun
    rw [if_pos hlt]
    cases ht : s.table a start with
    | none =>
      have hlt' := Cow.lt_nextRegion start
      have hsub : Finset.Ico (Cow.nextRegion start) stop ⊆ Finset.Ico start stop :=
        Finset.Ico_subset_Ico_left (Nat.le_of_lt hlt')
      refine (ih (Cow.nextRegion start) s (by omega) (hc.mono hsub)).congr fun q hq => ?_
      have hge : start ≤ q → Cow.nextRegion start ≤ q := fun h₁ =>
        Nat.le_of_not_lt fun h₂ => hq (mapping_of_region ht h₁ h₂)
      rw [Finset.mem_Ico, Finset.mem_Ico]
      omega
    | some pt =>
      have hone : (if s.pte a start ≠ Pte.zero then pageRemovePte a start s else s) =
          pageRemovePte a start s := by
        split
        · rfl
        · rename_i hz
          rw [pageRemovePte, not_not.mp hz]
          rfl
      simp only [hone]
      have hins : Finset.Ico start stop = {start} ∪ Finset.Ico (start + 1) stop := by
        ext q
        rw [Finset.mem_union, Finset.mem_singleton, Finset.mem_Ico, Finset.mem_Ico]
        omega
      have hdisj : Disjoint {start} (Finset.Ico (start + 1) stop) := by
        rw [Finset.disjoint_singleton_left, Finset.mem_Ico]
        omega
      have hspec := pageRemovePte_spec s a start
      rw [hins] at hc ⊢
      have hc' := hspec.covered hdisj hc
      exact (pageRemovePte_freedOnce s a start).trans (ih (start + 1) _ (by omega) hc') hspec
        (unmapLoop_spec a stop k (start + 1) _ (by omega) hc') hdisj hc

/-- The first loop of `exit_mmap`. -/
theorem unmapAll_spec (hr : ∀ v ∈ vmas, UserRange v.vmStart v.vmEnd)
    (hdisj : vmas.Pairwise fun v w => Disjoint (pagesOf v) (pagesOf w))
    (hc : Covered s a (allPages vmas)) :
    ∃ s', vmas.foldlM (fun s v => unmapRange a v.vmStart v.vmEnd s) s = some s' ∧
      Unmapped s s' a (allPages vmas) ∧ FreedOnce s s' a (allPages vmas) := by
  induction vmas generalizing s with
  | nil => exact ⟨s, rfl, Unmapped.of_none nofun, FreedOnce.of_none nofun⟩
  | cons v vmas ih =>
    obtain ⟨hfirst, hrest⟩ := List.pairwise_cons.mp hdisj
    have hapart := disjoint_allPages hfirst
    have hv : UserRange v.vmStart v.vmEnd := hr v List.mem_cons_self
    have hcv : Covered s a (pagesOf v) := hc.mono Finset.subset_union_left
    have hk : v.vmEnd / PGSIZE ≤ v.vmStart / PGSIZE + (v.vmEnd / PGSIZE - v.vmStart / PGSIZE) := by omega
    have h₁ := unmapLoop_spec a (v.vmEnd / PGSIZE) _ _ s hk hcv
    have hf₁ := unmapLoop_freedOnce a (v.vmEnd / PGSIZE) _ _ s hk hcv
    obtain ⟨s', hrun', h₂, hf₂⟩ := ih (fun w hw => hr w (List.mem_cons_of_mem v hw)) hrest
      (h₁.covered hapart hc)
    refine ⟨s', ?_, h₁.trans h₂ hapart hc, hf₁.trans hf₂ h₁ h₂ hapart hc⟩
    rw [List.foldlM_cons, unmapRange, if_pos hv]
    exact hrun'

/-! ### Pages of page tables -/

/-- A part of the page tables that has a page of its own. -/
inductive Node
  | dir (a i : ℕ)
  /-- the table of the region `r` -/
  | table (a r : ℕ)

/-- The directory that a node is or belongs to. -/
def Node.index : Node → ℕ
  | dir _ i => i
  | table _ r => r / NPDEENTRY

/-- The address space of a node. -/
def Node.space : Node → ℕ
  | dir a _ => a
  | table a _ => a

/-- The node belongs to the user part of `a`. -/
def Node.IsUser (x : Node) (a : ℕ) : Prop := x.index < USERDIRS ∧ x.space = a

/-- The page of a node. -/
def State.node (s : State) : Node → Option ℕ
  | .dir a i => (s.pgdir a i).map Dir.page
  | .table a r => (s.table a (r * NPTEENTRY)).map Table.page

/-- No page has two parts of the page tables, or a part and a frame, and none of them is free. -/
structure Apart (s : State) : Prop where
  inj : ∀ x y f, s.node x = some f → s.node y = some f → x = y
  free : ∀ x f, s.node x = some f → f ∉ s.free
  frame : ∀ x f b p, s.node x = some f → mapping s b p ≠ some f

theorem SameTables.node (h : SameTables s s') (x : Node) : s'.node x = s.node x := by
  cases x with
  | dir a i => exact h.dir a i
  | table a r => exact h.table a _

theorem node_dir (hd : s.pgdir a i = some pd0) : s.node (.dir a i) = some pd0.page := by
  rw [State.node, hd]
  rfl

theorem table_start (hd : s.pgdir a i = some pd0) (j : Fin NPDEENTRY) :
    s.table a ((i * NPDEENTRY + j) * NPTEENTRY) = pd0.entry j := by
  have hi : pdx1 ((i * NPDEENTRY + j) * NPTEENTRY) = i := by
    have hj := j.isLt
    simp only [pdx1, PDPAGES, NPDEENTRY, NPTEENTRY] at *
    omega
  rw [table_of_dir (by rw [hi, hd]), pdx0_start]

theorem node_table {j : Fin NPDEENTRY} (hd : s.pgdir a i = some pd0) (ht : pd0.entry j = some pt) :
    s.node (.table a (i * NPDEENTRY + j)) = some pt.page := by
  rw [State.node, table_start hd, ht]
  rfl

theorem index_table (i : ℕ) (j : Fin NPDEENTRY) : (Node.table a (i * NPDEENTRY + j)).index = i := by
  have hj := j.isLt
  simp only [Node.index, NPDEENTRY] at *
  omega

theorem pte_start {j : Fin NPDEENTRY} (hd : s.pgdir a i = some pd0) (ht : pd0.entry j = some pt)
    (k : Fin NPTEENTRY) : s.pte a ((i * NPDEENTRY + j) * NPTEENTRY + k) = pt.entry k := by
  have hk := k.isLt
  have hr : ((i * NPDEENTRY + j) * NPTEENTRY + k) / NPTEENTRY =
      (i * NPDEENTRY + j) * NPTEENTRY / NPTEENTRY := by
    simp only [NPDEENTRY, NPTEENTRY] at *
    omega
  have hx : ptx ((i * NPDEENTRY + j) * NPTEENTRY + k) = k := by
    refine Fin.ext ?_
    simp only [ptx, NPDEENTRY, NPTEENTRY] at *
    omega
  have htab : s.table a ((i * NPDEENTRY + j) * NPTEENTRY + k) = some pt := by
    rw [table_congr s a hr, table_start hd, ht]
  rw [pte_of_some htab, hx]

/-- Without mappings the tables hold no valid entry. -/
theorem Unused.of_mapping (h : ∀ p, mapping s a p = none) : Unused s a := by
  intro i pd0 hd j pt ht
  rw [Table.freePt, List.all_eq_true]
  intro k _
  have hv := mapping_eq_none.mp (h ((i * NPDEENTRY + j) * NPTEENTRY + k))
  rw [pte_start hd ht] at hv
  rw [hv]
  rfl

/-! ### What comes back -/

/-- The calls of `free_page` for directory `i`. -/
def dirCalls (s : State) (a : ℕ) (vmas : List Vma) (i : ℕ) : Multiset Released :=
  exitAllCalls (walks vmas i) (s.pgdir a i)

theorem mem_tableCall {o : Option Table} {x : Released} : x ∈ tableCall o ↔ ∃ pt, o = some pt ∧ x = .table pt := by
  cases o with
  | none => exact iff_of_false (Multiset.notMem_zero x) (by simp)
  | some pt => simp [tableCall]

/-- The calls are for tables and directories of `i`. -/
theorem mem_dirCalls {x : Released} : x ∈ dirCalls s a vmas i ↔
    ∃ pd0, s.pgdir a i = some pd0 ∧
      ((∃ j ∈ pd0.reached (walks vmas i), ∃ pt, pd0.entry j = some pt ∧ x = .table pt) ∨
        pd0.freed (walks vmas i) = true ∧ x = .dir (pd0.clear (pd0.reached (walks vmas i)))) := by
  rw [dirCalls]
  cases hd : s.pgdir a i with
  | none =>
    rw [exitAllCalls_none]
    exact iff_of_false (Multiset.notMem_zero x) (by simp)
  | some pd0 =>
    rw [exitAllCalls_some, Multiset.mem_add, Dir.tableCalls, Multiset.mem_sum]
    simp only [Option.some.injEq, exists_eq_left', mem_tableCall]
    refine or_congr Iff.rfl ?_
    by_cases hfreed : pd0.freed (walks vmas i) = true
    · rw [if_pos hfreed, Multiset.mem_singleton, and_iff_right hfreed]
    · rw [if_neg hfreed]
      exact iff_of_false (Multiset.notMem_zero x) fun h => hfreed h.1

/-- The node whose page a call gives back. -/
theorem exists_node {x : Released} (hx : x ∈ dirCalls s a vmas i) :
    ∃ y : Node, s.node y = some x.page ∧ y.index = i ∧ y.space = a := by
  obtain ⟨pd0, hd, ⟨j, -, pt, ht, rfl⟩ | ⟨-, rfl⟩⟩ := mem_dirCalls.mp hx
  · exact ⟨.table a (i * NPDEENTRY + j), node_table hd ht, index_table i j, rfl⟩
  · have hnode : s.node (.dir a i) = some pd0.page := node_dir hd
    exact ⟨.dir a i, hnode, rfl, rfl⟩

theorem Apart.table_inj (h : Apart s) {j k : Fin NPDEENTRY} {pt pt' : Table} (hd : s.pgdir a i = some pd0)
    (hj : pd0.entry j = some pt) (hk : pd0.entry k = some pt') (hpage : pt.page = pt'.page) : j = k := by
  have heq := h.inj _ _ _ (node_table hd hj) (hpage ▸ node_table hd hk)
  injection heq with _ hr
  exact Fin.ext (by omega)

theorem Apart.dir_ne_table (h : Apart s) {j : Fin NPDEENTRY} (hd : s.pgdir a i = some pd0)
    (hj : pd0.entry j = some pt) : pd0.page ≠ pt.page := by
  intro hpage
  have heq := h.inj _ _ _ (node_dir hd) ((node_table hd hj).trans (congrArg some hpage.symm))
  exact nomatch heq

/-- No page of a directory comes back twice. -/
theorem Apart.nodup_dirCalls (h : Apart s) (vmas : List Vma) (i : ℕ) :
    ((dirCalls s a vmas i).map Released.page).Nodup := by
  rw [dirCalls]
  cases hd : s.pgdir a i with
  | none =>
    rw [exitAllCalls_none]
    exact Multiset.nodup_zero
  | some pd0 =>
    have htables : ((pd0.tableCalls (pd0.reached (walks vmas i))).map Released.page).Nodup := by
      show (((pd0.reached (walks vmas i)).val.bind fun j => tableCall (pd0.entry j)).map _).Nodup
      rw [Multiset.map_bind, Multiset.nodup_bind]
      refine ⟨fun j _ => ?_, ?_⟩
      · cases pd0.entry j with
        | none => exact Multiset.nodup_zero
        | some pt => exact Multiset.nodup_singleton _
      · refine (pd0.reached (walks vmas i)).nodup.pairwise fun j _ k _ hne => ?_
        refine Multiset.disjoint_left.mpr fun hj hk => hne ?_
        obtain ⟨x, hx, rfl⟩ := Multiset.mem_map.mp hj
        obtain ⟨y, hy, hpage⟩ := Multiset.mem_map.mp hk
        obtain ⟨pt, ht, rfl⟩ := mem_tableCall.mp hx
        obtain ⟨pt', ht', rfl⟩ := mem_tableCall.mp hy
        exact h.table_inj hd ht ht' hpage.symm
    rw [exitAllCalls_some, Multiset.map_add, Multiset.nodup_add]
    refine ⟨htables, ?_, Multiset.disjoint_left.mpr fun hf hdir => ?_⟩
    · split
      · exact Multiset.nodup_singleton _
      · exact Multiset.nodup_zero
    · split at hdir
      · obtain ⟨x, hx, rfl⟩ := Multiset.mem_map.mp hf
        obtain ⟨j, -, hx⟩ := Multiset.mem_sum.mp hx
        obtain ⟨pt, ht, rfl⟩ := mem_tableCall.mp hx
        rw [Multiset.map_singleton, Multiset.mem_singleton] at hdir
        exact h.dir_ne_table hd ht hdir.symm
      · exact Multiset.notMem_zero _ hdir

/-- The calls of the second loop of `exit_mmap`. -/
def tableLog (s : State) (a : ℕ) (vmas : List Vma) : Multiset Released :=
  ∑ i ∈ Finset.range USERDIRS, dirCalls s a vmas i

theorem mem_tableLog {x : Released} :
    x ∈ tableLog s a vmas ↔ ∃ i, i < USERDIRS ∧ x ∈ dirCalls s a vmas i := by
  simp only [tableLog, Multiset.mem_sum, Finset.mem_range]

theorem exists_node_tableLog {x : Released} (hx : x ∈ tableLog s a vmas) :
    ∃ y : Node, s.node y = some x.page ∧ y.IsUser a := by
  obtain ⟨i, hi, hx⟩ := mem_tableLog.mp hx
  obtain ⟨y, hy, hindex, hspace⟩ := exists_node hx
  exact ⟨y, hy, hindex ▸ hi, hspace⟩

theorem user_notMem_tableLog : Released.user f ∉ tableLog s a vmas := by
  intro hf
  obtain ⟨i, -, hx⟩ := mem_tableLog.mp hf
  obtain ⟨pd0, -, ⟨j, -, pt, -, hx⟩ | ⟨-, hx⟩⟩ := mem_dirCalls.mp hx
  · exact nomatch hx
  · exact nomatch hx

/-- A closed directory goes without tables. -/
theorem entry_of_closed (hclosed : ∀ i < USERDIRS, ∀ pd0, s.pgdir a i = some pd0 → pd0.Closed (walks vmas i))
    (hx : .dir pd0 ∈ tableLog s a vmas) (j : Fin NPDEENTRY) : pd0.entry j = none := by
  obtain ⟨i, hi, hx⟩ := mem_tableLog.mp hx
  obtain ⟨pd, hd, ⟨k, -, pt, -, hx⟩ | ⟨-, hx⟩⟩ := mem_dirCalls.mp hx
  · exact nomatch hx
  · obtain rfl := Released.dir.inj hx
    have hall := ((Dir.closed_iff _ pd).mp (hclosed i hi pd hd)).2
    rw [Dir.clear_entry]
    split
    · rfl
    · rename_i hk
      by_contra hne
      exact hk (hall j (Option.isSome_iff_ne_none.mpr hne))

theorem Apart.nodup_tableLog (h : Apart s) (a : ℕ) (vmas : List Vma) :
    ((tableLog s a vmas).map Released.page).Nodup := by
  show (((Finset.range USERDIRS).val.bind (dirCalls s a vmas)).map _).Nodup
  rw [Multiset.map_bind, Multiset.nodup_bind]
  refine ⟨fun i _ => h.nodup_dirCalls vmas i, ?_⟩
  refine (Finset.range USERDIRS).nodup.pairwise fun i _ k _ hne => ?_
  refine Multiset.disjoint_left.mpr fun hi hk => hne ?_
  obtain ⟨x, hx, rfl⟩ := Multiset.mem_map.mp hi
  obtain ⟨y, hy, hpage⟩ := Multiset.mem_map.mp hk
  obtain ⟨n, hn, rfl, -⟩ := exists_node hx
  obtain ⟨m, hm, rfl, -⟩ := exists_node hy
  rw [h.inj n m _ hn (hpage ▸ hm)]

/-- **All pages of the page tables come back when every directory is closed.** -/
theorem Apart.returned_iff (h : Apart s) (a : ℕ) (vmas : List Vma) :
    (∀ x : Node, x.IsUser a → ∀ f, s.node x = some f → f ∈ (tableLog s a vmas).map Released.page) ↔
      ∀ i < USERDIRS, ∀ pd0, s.pgdir a i = some pd0 → pd0.Closed (walks vmas i) := by
  constructor
  · intro hall i hi pd0 hd
    -- what is given back for a node of `i` is in the calls for `i`
    have hcall : ∀ y : Node, y.IsUser a → y.index = i → ∀ f, s.node y = some f →
        ∃ x ∈ dirCalls s a vmas i, x.page = f := by
      intro y hy hindex f hf
      obtain ⟨x, hx, hpage⟩ := Multiset.mem_map.mp (hall y hy f hf)
      obtain ⟨k, -, hx⟩ := mem_tableLog.mp hx
      obtain ⟨n, hn, rfl, -⟩ := exists_node hx
      rw [h.inj n y f (hpage ▸ hn) hf, hindex] at hx
      exact ⟨x, hx, hpage⟩
    refine (Dir.closed_iff _ pd0).mpr ⟨?_, fun j hj => ?_⟩
    · obtain ⟨x, hx, hpage⟩ := hcall (.dir a i) ⟨hi, rfl⟩ rfl _ (node_dir hd)
      obtain ⟨pd, hd', ⟨j, -, pt, ht, rfl⟩ | ⟨hfreed, -⟩⟩ := mem_dirCalls.mp hx
      · rw [hd] at hd'
        obtain rfl := Option.some.inj hd'
        exact absurd hpage.symm (h.dir_ne_table hd ht)
      · rw [hd] at hd'
        rwa [← Option.some.inj hd'] at hfreed
    · obtain ⟨pt, ht⟩ := Option.isSome_iff_exists.mp hj
      have hindex := index_table (a := a) i j
      obtain ⟨x, hx, hpage⟩ := hcall _ ⟨hindex.symm ▸ hi, rfl⟩ hindex _ (node_table hd ht)
      obtain ⟨pd, hd', hx⟩ := mem_dirCalls.mp hx
      rw [hd] at hd'
      obtain rfl := Option.some.inj hd'
      obtain ⟨k, hk, pt', ht', rfl⟩ | ⟨-, rfl⟩ := hx
      · rwa [h.table_inj hd ht ht' hpage.symm]
      · exact absurd (show pd0.page = pt.page from hpage) (h.dir_ne_table hd ht)
  · intro hclosed x hx f hf
    obtain ⟨hi, hx⟩ := hx
    cases x with
    | dir b i =>
      obtain rfl : b = a := hx
      obtain ⟨pd0, hd, rfl⟩ := Option.map_eq_some_iff.mp hf
      refine Multiset.mem_map.mpr ⟨.dir (pd0.clear (pd0.reached (walks vmas i))),
        mem_tableLog.mpr ⟨i, hi, mem_dirCalls.mpr ⟨pd0, hd, Or.inr ⟨?_, rfl⟩⟩⟩, rfl⟩
      exact ((Dir.closed_iff _ pd0).mp (hclosed i hi pd0 hd)).1
    | table b r =>
      obtain rfl : b = a := hx
      obtain ⟨pt, ht, rfl⟩ := Option.map_eq_some_iff.mp hf
      obtain ⟨pd0, hd, hentry⟩ := pgdir_of_table ht
      have hr : pdx1 (r * NPTEENTRY) = r / NPDEENTRY := by
        simp only [pdx1, PDPAGES, NPDEENTRY, NPTEENTRY]
        omega
      rw [hr] at hd
      refine Multiset.mem_map.mpr ⟨.table pt, mem_tableLog.mpr ⟨r / NPDEENTRY, hi,
        mem_dirCalls.mpr ⟨pd0, hd, Or.inl ⟨_, ?_, pt, hentry, rfl⟩⟩⟩, rfl⟩
      exact ((Dir.closed_iff _ pd0).mp (hclosed _ hi pd0 hd)).2 _ (hentry ▸ rfl)

/-! ### `exit_mmap` -/

/-- The segments of the address space `a`. -/
structure Segments (s : State) (a : ℕ) (vmas : List Vma) : Prop where
  range : ∀ v ∈ vmas, UserRange v.vmStart v.vmEnd
  apart : vmas.Pairwise fun v w => v.vmEnd ≤ w.vmStart ∨ w.vmEnd ≤ v.vmStart
  mapped : ∀ p, mapping s a p ≠ none → ∃ v ∈ vmas, p ∈ pagesOf v

theorem Segments.disjoint (h : Segments s a vmas) :
    vmas.Pairwise fun v w => Disjoint (pagesOf v) (pagesOf w) := by
  refine h.apart.imp fun {v w} hvw => Finset.disjoint_left.mpr fun p hv hw => ?_
  rw [pagesOf, Finset.mem_Ico] at hv hw
  rcases hvw with hle | hle
  · have := Nat.div_le_div_right (c := PGSIZE) hle
    omega
  · have := Nat.div_le_div_right (c := PGSIZE) hle
    omega

/-- The first loop leaves nothing mapped. -/
theorem Segments.unused (h : Segments s a vmas) (hu : Unmapped s s' a (allPages vmas)) : Unused s' a := by
  refine Unused.of_mapping fun p => ?_
  rw [hu.mapping]
  split
  · rfl
  · rename_i hp
    by_contra hne
    exact hp ⟨rfl, mem_allPages.mpr (h.mapped p hne)⟩

theorem Unmapped.apart (hu : Unmapped s s' a P) (h : Apart s) : Apart s' := by
  have hnode := hu.tables.node
  have hmap : ∀ b p f, Paging.mapping s' b p = some f → Paging.mapping s b p = some f := by
    intro b p f hf
    rw [hu.mapping] at hf
    split at hf
    · exact nomatch hf
    · exact hf
  refine ⟨fun x y f hx hy => ?_, fun x f hx hf => ?_, fun x f b p hx hp => ?_⟩
  · exact h.inj x y f (hnode x ▸ hx) (hnode y ▸ hy)
  · rw [hnode] at hx
    rcases (hu.free f).mp hf with hf | ⟨⟨p, hp⟩, -⟩
    · exact h.free x f hx hf
    · exact h.frame x f a p hx (mem_mappingsOf.mp hp).2
  · exact h.frame x f b p (hnode x ▸ hx) (hmap b p f hp)

/-- Emptying tables does not change which directories are closed. -/
theorem SameTables.closed (h : SameTables s s') (hd : s'.pgdir a i = some pd0)
    (hclosed : ∀ pd, s.pgdir a i = some pd → pd.Closed Ws) : pd0.Closed Ws := by
  have hpage := h.dir a i
  rw [hd] at hpage
  obtain ⟨pd, hpd, -⟩ := Option.map_eq_some_iff.mp hpage.symm
  refine (hclosed pd hpd).congr fun j => ?_
  rw [← table_start hd, ← table_start hpd]
  exact h.isSome a _

theorem SameTables.symm (h : SameTables s s') : SameTables s' s :=
  ⟨fun b i => (h.dir b i).symm, fun b q => (h.table b q).symm⟩

theorem SameTables.closed_iff (h : SameTables s s') :
    (∀ i < USERDIRS, ∀ pd0, s'.pgdir a i = some pd0 → pd0.Closed (walks vmas i)) ↔
      ∀ i < USERDIRS, ∀ pd0, s.pgdir a i = some pd0 → pd0.Closed (walks vmas i) :=
  ⟨fun hc i hi _ hd => h.symm.closed hd (hc i hi), fun hc i hi _ hd => h.closed hd (hc i hi)⟩

/-- The two loops: `s₁` is the state between them, `fs` are the frames freed in the first. -/
structure TornDown (s s₁ s' : State) (a : ℕ) (vmas : List Vma) (log : List Released) (fs : List ℕ) : Prop where
  unmapped : Unmapped s s₁ a (allPages vmas)
  freed : s'.freed = (log ++ fs.map Released.user) ++ s.freed
  free : ∀ f, f ∈ s'.free ↔ f ∈ s.free ∨ f ∈ log.map Released.page ++ fs
  tables : (log : Multiset Released) = tableLog s₁ a vmas
  releases : Releases s₁ s' a
  nodup : fs.Nodup
  frames : ∀ f, f ∈ fs ↔ (mappingsOf s a (allPages vmas) f).Nonempty ∧
    s.ref f = (mappingsOf s a (allPages vmas) f).card

theorem exitMmap_spec (hs : Counted s) (hv : Segments s a vmas) :
    ∃ s₁ s' log fs, exitMmap a vmas s = some s' ∧ TornDown s s₁ s' a vmas log fs := by
  obtain ⟨s₁, hrun₁, hu, fs, hfreed₁, hnodup, hfs⟩ := unmapAll_spec hv.range hv.disjoint (hs.covered a _)
  obtain ⟨s', hrun₂, -, hfrees, hreleases⟩ := exitAll_spec hv.range (hv.unused hu)
  obtain ⟨log, hfreed₂, hlog⟩ := hfrees.freed
  have hframes : ∀ f, f ∈ fs ↔ (mappingsOf s a (allPages vmas) f).Nonempty ∧
      s.ref f = (mappingsOf s a (allPages vmas) f).card := by
    intro f
    rw [hfs, hu.ref]
    exact and_congr Iff.rfl sub_eq_zero
  refine ⟨s₁, s', log, fs, ?_, hu, ?_, fun f => ?_, hlog, hreleases, hnodup, hframes⟩
  · rw [exitMmap, hrun₁]
    exact hrun₂
  · rw [hfreed₂, hfreed₁, List.append_assoc]
  · rw [hfrees.free, hu.free, List.mem_append, hfs, or_assoc, List.mem_map]
    refine or_congr Iff.rfl ?_
    rw [or_comm, ← hlog]
    rfl

namespace TornDown

variable {s₁ : State} {log : List Released} {fs : List ℕ}

theorem pages (_ : TornDown s s₁ s' a vmas log fs) :
    (log ++ fs.map Released.user).map Released.page = log.map Released.page ++ fs := by
  rw [List.map_append, List.map_map]
  exact congrArg _ (List.map_id fs)

theorem mem_log (h : TornDown s s₁ s' a vmas log fs) (x : Released) : x ∈ log ↔ x ∈ tableLog s₁ a vmas := by
  rw [← h.tables, Multiset.mem_coe]

theorem node (h : TornDown s s₁ s' a vmas log fs) {x : Released} (hx : x ∈ log) :
    ∃ y : Node, s.node y = some x.page ∧ y.IsUser a := by
  obtain ⟨y, hy, huser⟩ := exists_node_tableLog ((h.mem_log x).mp hx)
  exact ⟨y, h.unmapped.tables.node y ▸ hy, huser⟩

theorem frame (h : TornDown s s₁ s' a vmas log fs) (hf : f ∈ fs) : ∃ p, mapping s a p = some f := by
  obtain ⟨⟨p, hp⟩, -⟩ := (h.frames f).mp hf
  exact ⟨p, (mem_mappingsOf.mp hp).2⟩

theorem mem_user (h : TornDown s s₁ s' a vmas log fs) (f : ℕ) :
    .user f ∈ log ++ fs.map Released.user ↔ f ∈ fs := by
  rw [List.mem_append, h.mem_log, or_iff_right user_notMem_tableLog, List.mem_map]
  simp only [Released.user.injEq, exists_eq_right]

theorem mem_dir (h : TornDown s s₁ s' a vmas log fs) :
    .dir pd0 ∈ log ++ fs.map Released.user ↔ .dir pd0 ∈ tableLog s₁ a vmas := by
  rw [List.mem_append, h.mem_log]
  refine or_iff_left fun hx => ?_
  obtain ⟨f, -, hf⟩ := List.mem_map.mp hx
  exact nomatch hf

/-- No page is freed twice. -/
theorem nodup_pages (h : TornDown s s₁ s' a vmas log fs) (ha : Apart s) :
    ((log ++ fs.map Released.user).map Released.page).Nodup := by
  have htables := (h.unmapped.apart ha).nodup_tableLog a vmas
  rw [← h.tables] at htables
  rw [h.pages]
  refine List.Nodup.append htables h.nodup fun f hf hf' => ?_
  obtain ⟨x, hx, rfl⟩ := List.mem_map.mp hf
  obtain ⟨y, hy, -⟩ := h.node hx
  obtain ⟨p, hp⟩ := h.frame hf'
  exact ha.frame y _ a p hy hp

/-- No free page is freed. -/
theorem page_not_free (h : TornDown s s₁ s' a vmas log fs) (hs : Counted s) (ha : Apart s) {x : Released}
    (hx : x ∈ log ++ fs.map Released.user) : x.page ∉ s.free := by
  rcases List.mem_append.mp hx with hx | hx
  · obtain ⟨y, hy, -⟩ := h.node hx
    exact ha.free y _ hy
  · obtain ⟨f, hf, rfl⟩ := List.mem_map.mp hx
    obtain ⟨p, hp⟩ := h.frame hf
    exact hs.not_free hp

theorem mem_pages (h : TornDown s s₁ s' a vmas log fs) (ha : Apart s) {x : Node} (hf : s.node x = some f) :
    f ∈ (log ++ fs.map Released.user).map Released.page ↔ f ∈ (tableLog s₁ a vmas).map Released.page := by
  rw [h.pages, List.mem_append, ← h.tables]
  refine or_iff_left fun hmem => ?_
  obtain ⟨p, hp⟩ := h.frame hmem
  exact ha.frame x f a p hf hp

end TornDown

/-- **`exit_mmap` is exact.**  It frees each page once at most: the frames that are mapped nowhere else,
and pages of the page tables.  All pages of the page tables come back, and no directory goes with a
table in it, if and only if every directory is closed. -/
theorem exitMmap_exact (hs : Counted s) (ha : Apart s) (hv : Segments s a vmas) :
    ∃ s' log, exitMmap a vmas s = some s' ∧ s'.freed = log ++ s.freed ∧
      (log.map Released.page).Nodup ∧ (∀ x ∈ log, x.page ∉ s.free) ∧
      (∀ f, f ∈ s'.free ↔ f ∈ s.free ∨ f ∈ log.map Released.page) ∧
      (∀ f, .user f ∈ log ↔ (mappingsOf s a (allPages vmas) f).Nonempty ∧
        s.ref f = (mappingsOf s a (allPages vmas) f).card) ∧
      ((∀ x : Node, x.IsUser a → ∀ f, s.node x = some f → f ∈ log.map Released.page) ∧
          (∀ pd0, .dir pd0 ∈ log → ∀ j, pd0.entry j = none) ↔
        ∀ i < USERDIRS, ∀ pd0, s.pgdir a i = some pd0 → pd0.Closed (walks vmas i)) := by
  obtain ⟨s₁, s', log, fs, hrun, h⟩ := exitMmap_spec hs hv
  refine ⟨s', log ++ fs.map Released.user, hrun, h.freed, h.nodup_pages ha,
    fun x hx => h.page_not_free hs ha hx, fun f => ?_, fun f => ?_, ?_⟩
  · rw [h.free, h.pages]
  · rw [h.mem_user, h.frames]
  · have hret := (h.unmapped.apart ha).returned_iff a vmas
    rw [← h.unmapped.tables.closed_iff]
    constructor
    · rintro ⟨hall, -⟩
      refine hret.mp fun x hx f hf => ?_
      rw [h.unmapped.tables.node] at hf
      exact (h.mem_pages ha hf).mp (hall x hx f hf)
    · intro hclosed
      refine ⟨fun x hx f hf => (h.mem_pages ha hf).mpr (hret.mpr hclosed x hx f ?_), fun pd0 hpd =>
        entry_of_closed hclosed (h.mem_dir.mp hpd)⟩
      rw [h.unmapped.tables.node, hf]

/-- The pages of the page tables of `twoPages`. -/
theorem twoPages_node {x : Node} (hf : twoPages.node x = some f) :
    x = .dir 0 0 ∧ f = 100 ∨ x = .table 0 1 ∧ f = 101 ∨ x = .table 0 3 ∧ f = 103 := by
  have hdir : ∀ b k pd0, twoPages.pgdir b k = some pd0 → b = 0 ∧ k = 0 ∧ pd0.page = 100 ∧
      ∀ j pt, pd0.entry j = some pt → (j.val = 1 ∨ j.val = 3) ∧ pt.page = 100 + j.val := by
    intro b k pd0 hd
    simp only [twoPages] at hd
    split at hd
    · rename_i hbk
      obtain rfl := Option.some.inj hd
      refine ⟨hbk.1, hbk.2, rfl, fun j pt ht => ?_⟩
      dsimp only at ht
      split at ht
      · rename_i hj
        obtain rfl := Option.some.inj ht
        exact ⟨hj, rfl⟩
      · cases ht
    · cases hd
  cases x with
  | dir b k =>
    obtain ⟨pd0, hd, rfl⟩ := Option.map_eq_some_iff.mp hf
    obtain ⟨rfl, rfl, hpage, -⟩ := hdir b k pd0 hd
    exact .inl ⟨rfl, hpage⟩
  | table b r =>
    obtain ⟨pt, ht, rfl⟩ := Option.map_eq_some_iff.mp hf
    obtain ⟨pd0, hd, hentry⟩ := pgdir_of_table ht
    obtain ⟨rfl, hk, -, htables⟩ := hdir _ _ pd0 hd
    obtain ⟨hj, hpage⟩ := htables _ pt hentry
    rcases hj with hj | hj
    · have hr : r = 1 := by
        simp only [pdx1, pdx0, PDPAGES, NPDEENTRY, NPTEENTRY] at *
        omega
      exact .inr (.inl ⟨by rw [hr], by rw [hpage, hj]⟩)
    · have hr : r = 3 := by
        simp only [pdx1, pdx0, PDPAGES, NPDEENTRY, NPTEENTRY] at *
        omega
      exact .inr (.inr ⟨by rw [hr], by rw [hpage, hj]⟩)

theorem twoPages_apart : Apart twoPages := by
  refine ⟨fun x y f hx hy => ?_, fun x f hx => ?_, fun x f b p hx hp => ?_⟩
  · obtain ⟨rfl, rfl⟩ | ⟨rfl, rfl⟩ | ⟨rfl, rfl⟩ := twoPages_node hx
    all_goals
      obtain ⟨rfl, h⟩ | ⟨rfl, h⟩ | ⟨rfl, h⟩ := twoPages_node hy
      all_goals first | rfl | exact absurd h (by decide)
  · obtain ⟨-, rfl⟩ | ⟨-, rfl⟩ | ⟨-, rfl⟩ := twoPages_node hx
    all_goals decide
  · obtain ⟨-, ⟨-, rfl⟩ | ⟨-, rfl⟩⟩ := twoPages_mapping.mp hp
    all_goals
      obtain ⟨-, h⟩ | ⟨-, h⟩ | ⟨-, h⟩ := twoPages_node hx
      all_goals exact absurd h (by decide)

/-- The segments of `twoPages`; the second one has a page that is not mapped. -/
def twoSegments : List Vma :=
  [⟨0x200000, 0x201000, Cow.VM_READ ||| Cow.VM_WRITE⟩, ⟨0x600000, 0x602000, Cow.VM_READ⟩]

theorem exitMmap_exact_twoPages :
    ∃ s' log, exitMmap 0 twoSegments twoPages = some s' ∧ s'.freed = log ++ twoPages.freed ∧
      (log.map Released.page).Nodup ∧ (∀ x ∈ log, x.page ∉ twoPages.free) ∧
      (∀ f, f ∈ s'.free ↔ f ∈ twoPages.free ∨ f ∈ log.map Released.page) ∧
      (∀ f, .user f ∈ log ↔ (mappingsOf twoPages 0 (allPages twoSegments) f).Nonempty ∧
        twoPages.ref f = (mappingsOf twoPages 0 (allPages twoSegments) f).card) ∧
      ((∀ x : Node, x.IsUser 0 → ∀ f, twoPages.node x = some f → f ∈ log.map Released.page) ∧
          (∀ pd0, .dir pd0 ∈ log → ∀ j, pd0.entry j = none) ↔
        ∀ i < USERDIRS, ∀ pd0, twoPages.pgdir 0 i = some pd0 → pd0.Closed (walks twoSegments i)) := by
  refine exitMmap_exact twoPages_counted twoPages_apart ⟨by decide, by decide, fun p hp => ?_⟩
  obtain ⟨f, hf⟩ := Option.ne_none_iff_exists'.mp hp
  obtain ⟨-, ⟨rfl, -⟩ | ⟨rfl, -⟩⟩ := twoPages_mapping.mp hf
  · exact ⟨_, List.mem_cons_self, by decide⟩
  · exact ⟨_, List.mem_cons_of_mem _ List.mem_cons_self, by decide⟩

end Ucore.Paging
