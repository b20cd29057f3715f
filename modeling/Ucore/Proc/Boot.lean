import Ucore.Proc.Steps

/-!
# The start of the processes

`proc_init` makes `idleproc` by hand and forks `initproc` from it.
-/

namespace Ucore.Proc

open Function Fallible Forest State

variable {s : State}

/-- `initproc` at `c` is the first process that `idleproc` forks: it has a copy `t'` of the table `t`. -/
structure Boots (idle t : ℕ) (refCount openCount : ℕ → ℤ) (c t' : ℕ) (tables : Tables) (l n : ℤ)
    (s : State) : Prop where
  ne_idle : c ≠ idle
  ne_table : t' ≠ t
  gets : ∃ fs, ((bootState idle t refCount openCount).tables.filesCreate t').dupFiles t' t = .ok fs ∧
    tables = fs.filesCountInc t'
  fresh : Fresh [] l n
  frame : s = { bootState idle t refCount openCount with
    allocated := [c, idle]
    pid := update (fun _ => 0) c l
    needResched := s.needResched
    family := Links.attach c idle
      ⟨update (fun _ => none) c (some idle), fun _ => none, fun _ => none, fun _ => none⟩
    mm := s.mm
    timeSlice := s.timeSlice
    filesp := update (fun _ => some t) c (some t')
    procList := [c]
    hashList := update (fun _ => []) (pidHashfn l) [c]
    nrProcess := 2
    initproc := c
    lastPid := l
    nextSafe := n
    runList := [c]
    rq := update (fun _ => false) c true
    procNum := s.procNum
    mmCount := s.mmCount
    tables := tables }

theorem update_const {α : Type} (c : ℕ) (v : α) : update (fun _ => v) c v = fun _ => v :=
  update_eq_self c fun _ => v

theorem State.Booted.boots (h : Booted s) : ∃ idle t refCount openCount c t' tables l n,
    Boots idle t refCount openCount c t' tables l n s := by
  obtain ⟨idle, t, refCount, openCount, answers, s₁, ret, hfresh, hfork, p, hfind, rfl⟩ := h
  have hpos : 0 < ret := by
    rw [findProc] at hfind
    split at hfind
    case isTrue hrange => exact hrange.1
    case isFalse => cases hfind
  have hno : ∀ (s' : State) (n : ℤ), n < 0 →
      (Except.ok (s', n) : Except Panic (State × ℤ)) ≠ .ok (s₁, ret) := by
    intro s' n hn heq
    cases heq
    omega
  let b := bootState idle t refCount openCount
  have hmax : ¬ ((b.nrProcess : ℕ) : ℤ) ≥ MAX_PROCESS := show ¬ ((1 : ℕ) : ℤ) ≥ 4096 by decide
  cases hproc : answers.proc with
  | none =>
    rw [doFork, if_neg hmax, hproc] at hfork
    exact absurd hfork (hno _ _ (by decide))
  | some c =>
    have hc : c ≠ idle := fun heq => hfresh.1 c hproc (List.mem_singleton.mpr heq)
    rw [doFork_eq hmax hproc] at hfork
    by_cases hk : answers.kstack
    swap
    · rw [if_pos hk] at hfork
      exact absurd hfork (hno _ _ (by decide))
    rw [if_neg (not_not.mpr hk)] at hfork
    cases hmm : (b.newProc c).copyMm true answers.mm c with
    | none =>
      rw [hmm] at hfork
      exact absurd hfork (hno _ _ (by decide))
    | some s₂ =>
      rw [hmm] at hfork
      obtain ⟨mm, mmCount, rfl⟩ := copyMm_cases hmm
      obtain ⟨r, hfiles, hrest⟩ := bind_eq_ok.mp hfork
      rcases copyFiles_cases hfiles with (heq | heq) | heq | ⟨t', tables, hgets, heq⟩
      · cases heq
      · cases heq
      · cases heq
        obtain ⟨s₃, -, heq⟩ := bind_eq_ok.mp hrest
        exact absurd heq (hno _ _ (by decide))
      · cases heq
        obtain ⟨t₀, ht₀, hcase⟩ := hgets
        have ht : update (fun _ => some t) c none idle = some t₀ := ht₀
        rw [update_of_ne hc.symm] at ht
        cases ht
        obtain ⟨hclone, -⟩ | ⟨-, hanswer, fs, hdup, htables⟩ := hcase
        · cases hclone
        have ht' : t' ≠ t := fun heq => hfresh.2 t' hanswer (List.mem_singleton.mpr heq)
        obtain ⟨l, n, ts, k, hl, hstart⟩ := startProc_eq (s := { b.newProc c with
          mm := mm, mmCount := mmCount, filesp := update (b.newProc c).filesp c (some t')
          tables := tables }) (update_self _ _ _) (update_self _ _ _) hc List.not_mem_nil
          ⟨show 1 ≤ MAX_PID by decide, le_rfl, fun _ h => absurd h List.not_mem_nil⟩
          (show ((0 : ℕ) : ℤ) < MAX_PROCESS by decide)
        obtain ⟨rfl, rfl⟩ := Prod.mk.inj (Except.ok.inj (hstart.symm.trans hrest))
        have hpc : p = c := by
          have hlen : 0 < l ∧ l < MAX_PID := ⟨hpos, lt_of_lt_of_le hl.lt hl.safe⟩
          rw [findProc, if_pos hlen] at hfind
          have hmem := List.mem_of_find?_eq_some hfind
          have hmem' : p ∈ update (fun _ => ([] : List ℕ)) (pidHashfn l) [c] (pidHashfn l) := hmem
          rw [update_self] at hmem'
          exact List.mem_singleton.mp hmem'
        subst hpc
        refine ⟨idle, t, refCount, openCount, p, t', tables, l, n, hc, ht', ⟨fs, hdup, htables⟩, hl, ?_⟩
        have hrun : (if p = idle then ([] : List ℕ) else [] ++ [p]) = [p] := if_neg hc
        simp only [b, newProc, allocProc, bootState, update_idem, update_const, hrun, if_neg hc]

/-- **The invariant holds at the start.** -/
theorem State.Booted.ok (h : Booted s) : Ok s := by
  obtain ⟨idle, t, refCount, openCount, c, t', tables, l, n, hb⟩ := h.boots
  have hidle := hb.ne_idle
  have hnil : c ∉ ([] : List ℕ) := List.not_mem_nil
  have hset : insert c (∅ : Set ℕ) = { p | p ∈ [c] } := by
    ext p
    simp
  have hpar : update (fun _ => none) c (some idle) c = some idle := update_self _ _ _
  have hforest := (isForest_empty (r := idle) (f := ⟨update (fun _ => none) c (some idle),
    fun _ => none, fun _ => none, fun _ => none⟩) rfl).attach (Set.notMem_empty c) hidle (Or.inl rfl)
    hpar rfl
  rw [hset] at hforest
  have hpids : PidsOk (fun _ => 0) [] (fun _ => []) MAX_PID MAX_PID :=
    ⟨fun p hp => absurd hp List.not_mem_nil, fun p hp => absurd hp List.not_mem_nil,
      fun _ => List.nodup_nil, fun _ p => by simp, by decide, le_rfl,
      fun _ h => absurd h List.not_mem_nil⟩
  rw [hb.frame]
  refine ⟨⟨hforest, List.nodup_singleton c, .init, hpar, ?_⟩, hpids.hashNew hnil hb.fresh,
    ⟨List.nodup_singleton c, ?_, ?_, Or.inl rfl, rfl, ?_⟩, ⟨?_, ?_, rfl, ?_⟩, ⟨List.nodup_nil, ?_, ?_, ?_⟩, ?_,
    ?_, rfl, ?_, ?_⟩
  · intro b _ p _
    exact fun hz => nomatch hz
  · intro p hp
    rw [List.mem_singleton.mp hp]
    exact update_self c true fun _ => false
  · intro p
    rw [List.mem_singleton]
    exact ⟨fun hp => ⟨hp, rfl, hp ▸ hidle⟩, fun hp => hp.1⟩
  · exact fun hmem => hidle (List.mem_singleton.mp hmem).symm
  · exact fun p _ hne => absurd rfl hne
  · exact fun p _ hne => nomatch hne
  · exact fun p _ hne => nomatch hne
  · exact fun p hp => absurd hp List.not_mem_nil
  · exact fun e he => nomatch he
  · exact fun p _ hin => nomatch hin
  · exact fun _ => rfl
  · exact fun hz => nomatch hz
  · exact List.nodup_cons.mpr ⟨fun hmem => hidle (List.mem_singleton.mp hmem),
      List.nodup_singleton idle⟩
  · intro p
    show p ∈ [c, idle] ↔ p = idle ∨ p ∈ [c]
    rw [List.mem_cons, or_comm, List.mem_singleton, List.mem_singleton]

end Ucore.Proc
