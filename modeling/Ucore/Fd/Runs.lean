import Ucore.Fd.Invariant
import Ucore.Lib.Transition

/-!
# Runs of processes that share tables of open files

Every step of every process keeps the invariant `FdOk` and stops at no assertion.

* `descriptor_table`: in every state reached each entry has the open count that its status and the
  operations in flight on it require; every reference taken for an entry is given back by one
  `vfs_close`, at a moment when no operation is in flight on the entry.
-/

namespace Ucore.Fd

open Ledger Function Relation Sfs
open Proc (FILES_STRUCT_NENTRY)

variable {π τ ν : Type}

theorem fdArrayFind_ok {s : State π τ ν} {t : τ} {fd : ℤ} {i : ℕ}
    (h : s.fdArrayFind t fd = .ok i) :
    (s.file (t, i)).status = .FD_NONE := by
  unfold State.fdArrayFind at h
  split at h
  case isTrue hno =>
    split at h
    case h_1 j hj =>
      cases h
      have hfree := List.find?_some hj
      exact of_decide_eq_true hfree
    case h_2 hnone => exact nomatch h
  case isFalse hno =>
    split at h
    case isTrue htest =>
      split at h
      case isTrue hfree =>
        cases h
        exact hfree
      case isFalse hfree => exact nomatch h
    case isFalse htest => exact nomatch h

variable [DecidableEq τ]

/-- What each process is doing with the entry `e`. -/
def roles (pc : π → Pc τ ν) (e : Entry τ) : π → Role ν := fun q => (pc q).role e

/-- The process does nothing with other entries than `e`. -/
def Pc.Only (e : Entry τ) (c : Pc τ ν) : Prop := ∀ e', e' ≠ e → c.role e' = .away

theorem Pc.only_user {e : Entry τ} : Pc.Only e (.user : Pc τ ν) := fun _ _ => rfl

theorem Pc.only_using {e : Entry τ} {op : Op} : Pc.Only e (.using e op : Pc τ ν) :=
  fun _ h => if_neg h.symm

theorem Pc.only_opening {e : Entry τ} {flags : BitVec 32} :
    Pc.Only e (.opening e flags : Pc τ ν) := fun _ h => if_neg h.symm

theorem Pc.only_opened {e : Entry τ} {flags : BitVec 32} {n : ν} :
    Pc.Only e (.opened e flags n) := fun _ h => if_neg h.symm

theorem Pc.only_unopening {e : Entry τ} : Pc.Only e (.unopening e : Pc τ ν) :=
  fun _ h => if_neg h.symm

theorem Pc.only_freeing {e : Entry τ} {next : Option ℕ} :
    Pc.Only e (.freeing e next : Pc τ ν) := fun _ h => if_neg h.symm

theorem roles_update [DecidableEq π] {pc : π → Pc τ ν} {p : π} {c : Pc τ ν} {e : Entry τ} :
    roles (update pc p c) e = update (roles pc e) p (c.role e) := by
  funext q
  by_cases hq : q = p
  · rw [hq, update_self]
    show (update pc p c p).role e = c.role e
    rw [update_self]
  · rw [update_of_ne hq]
    show (update pc p c q).role e = (pc q).role e
    rw [update_of_ne hq]

variable [DecidableEq ν]

/-- Every entry is in order. -/
def EntriesOk (s : State π τ ν) : Prop :=
  ∀ e, EntryOk (roles s.pc e) (s.file e) (outstanding e s.log)

/-- The invariant: besides, the tables of processes are counted, and the others are empty. -/
structure FdOk (s : State π τ ν) : Prop where
  entry : EntriesOk s
  counted : ∀ p t, s.filesp p = some t → 0 < s.filesCount t
  unused : ∀ e : Entry τ, s.filesCount e.1 = 0 → (s.file e).status = .FD_NONE

variable {s s' : State π τ ν} {p : π} {e : Entry τ} {f f' : File ν} {c c' : Pc τ ν}
  {log : List (Call (Entry τ) ν)} {fd : ℤ} {n : ν}

theorem FdOk.of_initial (h : Initial s) : FdOk s := by
  constructor
  · intro e
    have hfile : s.file e = File.init e.2 := h.file e.1 e.2
    rw [hfile, h.log]
    apply EntryOk.unused
    · rfl
    · rfl
    · intro p
      unfold roles
      rw [h.pc p]
      rfl
  · exact h.filesCount
  · intro e _
    rw [show s.file e = File.init e.2 from h.file e.1 e.2]
    rfl

theorem FdOk.pos (h : FdOk s) (hs : (s.file e).status ≠ .FD_NONE) : 0 < s.filesCount e.1 :=
  Nat.pos_of_ne_zero fun h0 => hs (h.unused e h0)

theorem FdOk.unused_update (h : FdOk s) (hpos : 0 < s.filesCount e.1) (e' : Entry τ)
    (he' : s.filesCount e'.1 = 0) : (update s.file e f' e').status = .FD_NONE := by
  have hne : e' ≠ e := by
    intro hee
    rw [hee] at he'
    omega
  rw [update_of_ne hne]
  exact h.unused e' he'

/-- One entry and the log for it change. -/
theorem EntriesOk.setFile (h : EntriesOk s)
    (hlog : ∀ e', e' ≠ e → outstanding e' log = outstanding e' s.log)
    (hentry : EntryOk (roles s.pc e) f' (outstanding e log)) :
    EntriesOk { s with file := update s.file e f', log := log } := by
  intro e'
  show EntryOk (roles s.pc e') (update s.file e f' e') (outstanding e' log)
  by_cases he : e' = e
  · rw [he, update_self]
    exact hentry
  · rw [update_of_ne he, hlog e' he]
    exact h e'

theorem FdOk.setFile (h : FdOk s) (hpos : 0 < s.filesCount e.1)
    (hlog : ∀ e', e' ≠ e → outstanding e' log = outstanding e' s.log)
    (hentry : EntryOk (roles s.pc e) f' (outstanding e log)) :
    FdOk { s with file := update s.file e f', log := log } :=
  ⟨h.entry.setFile hlog hentry, h.counted, h.unused_update hpos⟩

/-- A change of other fields of an entry. -/
theorem FdOk.touch (h : FdOk s) (hpos : 0 < s.filesCount e.1) (hs : f'.status = (s.file e).status)
    (hc : f'.openCount = (s.file e).openCount) (hn : f'.node = (s.file e).node) :
    FdOk (s.setFile e f') :=
  h.setFile hpos (fun _ _ => rfl) ((h.entry e).congr hs hc hn)

/-- An operation of `p` on the entry `e` is in flight. -/
def State.InFlight (p : π) (e : Entry τ) (s : State π τ ν) : Prop := ∃ op, s.pc p = .using e op

omit [DecidableEq ν] in
theorem inFlight_iff : s.InFlight p e ↔ roles s.pc e p = .uses := by
  unfold State.InFlight roles
  cases hpc : s.pc p with
  | «using» e' op =>
    show (∃ op', Pc.using e' op = Pc.using e op') ↔ (if e' = e then Role.uses else .away) = .uses
    by_cases he : e' = e
    · rw [if_pos he, he]
      exact iff_of_true ⟨op, rfl⟩ rfl
    · rw [if_neg he]
      apply iff_of_false _ nofun
      rintro ⟨op', hop⟩
      cases hop
      exact he rfl
  | user => exact iff_of_false nofun nofun
  | opening e' flags =>
    show _ ↔ (if e' = e then Role.opening else .away) = .uses
    split <;> exact iff_of_false nofun nofun
  | opened e' flags n =>
    show _ ↔ (if e' = e then Role.opened n else .away) = .uses
    split <;> exact iff_of_false nofun nofun
  | unopening e' =>
    show _ ↔ (if e' = e then Role.unopening else .away) = .uses
    split <;> exact iff_of_false nofun nofun
  | freeing e' next =>
    show _ ↔ (if e' = e then Role.freeing else .away) = .uses
    split <;> exact iff_of_false nofun nofun

/-- The outcome of a step: the invariant holds, and references are given back for entries without an
operation in flight only. -/
structure Good (s s' : State π τ ν) : Prop where
  ok : FdOk s'
  calls : ∃ calls, s'.log = calls ++ s.log ∧
    ∀ e n, Call.give e n ∈ calls → ∀ q, ¬s'.InFlight q e

theorem Good.of_log (h : FdOk s') (hlog : s'.log = s.log) : Good s s' :=
  ⟨h, [], hlog, nofun⟩

theorem Good.of_take (h : FdOk s') (hlog : s'.log = .take e n :: s.log) : Good s s' := by
  refine ⟨h, [.take e n], hlog, ?_⟩
  intro e' n' hmem
  exact nomatch List.mem_singleton.mp hmem

theorem Good.of_give (h : FdOk s') (hlog : s'.log = .give e n :: s.log)
    (hout : outstanding e s'.log = some none) : Good s s' := by
  refine ⟨h, [.give e n], hlog, ?_⟩
  intro e' n' hmem q hq
  cases List.mem_singleton.mp hmem
  obtain ⟨-, -, m, -, hm⟩ := (h.entry e).of_uses (inFlight_iff.mp hq)
  exact nomatch hout.symm.trans hm

theorem Good.trans {s'' : State π τ ν} (h : Good s' s'') (hlog : s'.log = s.log) :
    Good s s'' := by
  obtain ⟨calls, hcalls, hgive⟩ := h.calls
  exact ⟨h.ok, calls, by rw [hcalls, hlog], hgive⟩

variable [DecidableEq π]

/-- One entry, the log for it, and the place of one process change. -/
theorem FdOk.change (h : FdOk s) (hpos : 0 < s.filesCount e.1) (hold : (s.pc p).Only e)
    (hnew : c'.Only e) (hlog : ∀ e', e' ≠ e → outstanding e' log = outstanding e' s.log)
    (hentry : EntryOk (update (roles s.pc e) p (c'.role e)) f' (outstanding e log)) :
    FdOk { s with file := update s.file e f', pc := update s.pc p c', log := log } := by
  constructor
  · intro e'
    show EntryOk (roles (update s.pc p c') e') (update s.file e f' e') (outstanding e' log)
    rw [roles_update]
    by_cases he : e' = e
    · rw [he, update_self]
      exact hentry
    · have hsame : update (roles s.pc e') p (c'.role e') = roles s.pc e' := by
        rw [hnew e' he, ← hold e' he]
        exact update_eq_self p _
      rw [update_of_ne he, hlog e' he, hsame]
      exact h.entry e'
  · exact h.counted
  · exact h.unused_update hpos

/-! ### The table -/

omit [DecidableEq π] in
theorem FdOk.getFdArray (h : FdOk s) (hp : s.Idle p) :
    ∃ t, s.getFdArray p = .ok t ∧ 0 < s.filesCount t := by
  obtain ⟨-, hfilesp⟩ := hp
  unfold State.getFdArray
  cases ht : s.filesp p with
  | none => exact absurd ht hfilesp
  | some t =>
    have hpos := h.counted p t ht
    exact ⟨t, if_pos hpos, hpos⟩

omit [DecidableEq π] in
theorem FdOk.fd2file (h : FdOk s) (hp : s.Idle p) (fd : ℤ) :
    ∃ o, s.fd2file p fd = .ok o ∧ ∀ e, o = some e → (s.file e).status = .FD_OPENED := by
  obtain ⟨t, ht, -⟩ := h.getFdArray hp
  unfold State.fd2file
  by_cases hfd : State.testfd fd = true
  · rw [if_pos hfd, ht]
    dsimp only [Bind.bind, Except.bind]
    split
    case isTrue hopen =>
      refine ⟨_, rfl, ?_⟩
      intro e he
      cases he
      exact hopen.1
    case isFalse hopen => exact ⟨none, rfl, nofun⟩
  · rw [if_neg hfd]
    exact ⟨none, rfl, nofun⟩

omit [DecidableEq π] in
theorem FdOk.fdArrayAlloc (h : FdOk s) (hp : s.Idle p) (fd : ℤ) :
    (∃ ret, s.fdArrayAlloc p fd = .ok (s, .error ret)) ∨
      ∃ e, (s.file e).status = .FD_NONE ∧ 0 < s.filesCount e.1 ∧ s.fdArrayAlloc p fd
        = .ok (s.setFile e { s.file e with status := .FD_INIT, node := none }, .ok e) := by
  obtain ⟨t, ht, hpos⟩ := h.getFdArray hp
  unfold State.fdArrayAlloc
  rw [ht]
  cases hfind : s.fdArrayFind t fd with
  | error ret =>
    left
    refine ⟨ret, ?_⟩
    dsimp only [Bind.bind, Except.bind]
    rw [hfind]
  | ok i =>
    have hs := fdArrayFind_ok hfind
    obtain ⟨hc, -, -⟩ := (h.entry (t, i)).of_none hs
    right
    refine ⟨(t, i), hs, hpos, ?_⟩
    dsimp only [Bind.bind, Except.bind]
    rw [hfind]
    exact if_pos hc

/-- A place in the code and the entry there. -/
theorem FdOk.acquire (h : FdOk s) (hp : s.pc p = .user) (hs : (s.file e).status = .FD_OPENED)
    (op : Op) : ∃ s', s.fdArrayAcquire p e op = .ok s' ∧ Good s s' ∧ s'.pc p = .using e op ∧
      s'.log = s.log := by
  unfold State.fdArrayAcquire
  rw [if_pos hs]
  refine ⟨_, rfl, Good.of_log ?_ rfl, update_self _ _ _, rfl⟩
  apply h.change (h.pos (by rw [hs]; exact nofun)) (by rw [hp]; exact Pc.only_user) Pc.only_using
    fun _ _ => rfl
  have hrole : roles s.pc e p = .away := by
    unfold roles
    rw [hp]
    rfl
  have hentry := (h.entry e).acquire hs hrole
  rw [show (Pc.using e op : Pc τ ν).role e = .uses from if_pos rfl]
  exact hentry

omit [DecidableEq π] [DecidableEq ν] in
theorem role_of_using {op : Op} (hp : s.pc p = .using e op) : roles s.pc e p = .uses := by
  unfold roles
  rw [hp]
  exact if_pos rfl

omit [DecidableEq τ] [DecidableEq ν] in
theorem fdArrayFree_eq (next : Option ℕ) (hn : (s.file e).node = some n)
    (hs : (s.file e).status = .FD_CLOSED) (hc : (s.file e).openCount = 0) :
    s.fdArrayFree p e next = .ok ((s.record (.give e n)).goto p (.freeing e next)) := by
  unfold State.fdArrayFree
  rw [hn]
  exact if_pos ⟨hs, hc⟩

omit [DecidableEq π] in
theorem outstanding_give_of_ne {e' : Entry τ} (he' : e' ≠ e) :
    outstanding e' (.give e n :: s.log) = outstanding e' s.log :=
  outstanding_cons_of_ne he'.symm

omit [DecidableEq π] in
theorem outstanding_take_of_ne {e' : Entry τ} (he' : e' ≠ e) :
    outstanding e' (.take e n :: s.log) = outstanding e' s.log :=
  outstanding_cons_of_ne he'.symm

/-- A process goes into the `vfs_close` of `fd_array_free`. -/
theorem FdOk.free (h : FdOk s) (next : Option ℕ) (hpos : 0 < s.filesCount e.1)
    (hold : (s.pc p).Only e) (hout : outstanding e s.log = some (some n))
    (hentry : EntryOk (update (roles s.pc e) p .freeing) f' (some none)) :
    Good s (((s.setFile e f').record (.give e n)).goto p (.freeing e next)) := by
  apply Good.of_give (n := n) (e := e) _ rfl (outstanding_give hout)
  apply h.change hpos hold Pc.only_freeing fun e' he' => outstanding_give_of_ne he'
  rw [outstanding_give hout, show (Pc.freeing e next : Pc τ ν).role e = .freeing from if_pos rfl]
  exact hentry

/-- `fd_array_release`. -/
theorem FdOk.release (h : FdOk s) {op : Op} (hp : s.pc p = .using e op) :
    ∃ s', s.fdArrayRelease p e = .ok s' ∧ Good s s' := by
  have hrole := role_of_using hp
  have hold : (s.pc p).Only e := by
    rw [hp]
    exact Pc.only_using
  obtain ⟨hstatus, hcount, n, hn, hout⟩ := (h.entry e).of_uses hrole
  have hpos : 0 < s.filesCount e.1 := by
    apply h.pos
    intro hnone
    rcases hstatus with hs | hs <;> exact nomatch hnone.symm.trans hs
  unfold State.fdArrayRelease
  rw [if_pos hstatus, if_pos hcount]
  by_cases hlast : (s.file e).openCount - 1 = 0
  · obtain ⟨hclosed, hentry⟩ := (h.entry e).releaseLast hrole hlast
    dsimp only
    rw [if_pos hlast]
    generalize hf : ({ s.file e with openCount := (s.file e).openCount - 1 } : File ν) = f at hentry
    have hfile : ((s.setFile e f).goto p .user).file e = f := update_self _ _ _
    have hfree := fdArrayFree_eq (s := (s.setFile e f).goto p .user) (p := p) (e := e) (n := n)
      none (by rw [hfile, ← hf]; exact hn) (by rw [hfile, ← hf]; exact hclosed)
      (by rw [hfile, ← hf]; exact hlast)
    refine ⟨_, hfree, ?_⟩
    have hgood := h.free none hpos hold hout hentry
    show Good s ((((s.setFile e f).record (.give e n)).goto p .user).goto p (.freeing e none))
    rw [State.goto_goto]
    exact hgood
  · dsimp only
    rw [if_neg hlast]
    refine ⟨_, rfl, Good.of_log ?_ rfl⟩
    exact h.change hpos hold Pc.only_user (fun _ _ => rfl) ((h.entry e).release hrole hlast)

/-- `fd_array_close`.  Unless it is in `vfs_close` then, the process is where it was. -/
theorem FdOk.close (h : FdOk s) (hp : s.pc p = .user) (hs : (s.file e).status = .FD_OPENED)
    (next : Option ℕ) : ∃ s' inside, s.fdArrayClose p e next = .ok (s', inside) ∧ Good s s' ∧
      (inside = false → s'.pc = s.pc ∧ s'.log = s.log) := by
  have hold : (s.pc p).Only e := by
    rw [hp]
    exact Pc.only_user
  obtain ⟨k, n, hc, hk, hroles, hn, hout⟩ := (h.entry e).of_opened hs
  have hpos : 0 < s.filesCount e.1 := h.pos (by rw [hs]; exact nofun)
  unfold State.fdArrayClose
  rw [if_pos ⟨hs, by omega⟩]
  dsimp only
  by_cases hlast : (s.file e).openCount - 1 = 0
  · have hentry := (h.entry e).closeLast (p := p) hs hlast
    rw [if_pos hlast]
    generalize hf : ({ s.file e with status := .FD_CLOSED, openCount := (s.file e).openCount - 1 } :
      File ν) = f at hentry
    have hfree := fdArrayFree_eq (s := s.setFile e f) (p := p) (e := e) (n := n) next
      (by rw [State.setFile_file, ← hf]; exact hn) (by rw [State.setFile_file, ← hf])
      (by rw [State.setFile_file, ← hf]; exact hlast)
    refine ⟨_, true, ?_, h.free next hpos hold hout hentry, nofun⟩
    rw [hfree]
    rfl
  · rw [if_neg hlast]
    refine ⟨_, false, rfl, Good.of_log ?_ rfl, fun _ => ⟨rfl, rfl⟩⟩
    exact h.setFile hpos (fun _ _ => rfl) ((h.entry e).close hs hlast)

/-- The loop of `files_closeall`. -/
theorem FdOk.closeallLoop (t : τ) (n i : ℕ) (h : FdOk s) (hp : s.pc p = .user) :
    ∃ s', State.closeallLoop p t n i s = .ok s' ∧ Good s s' := by
  induction n generalizing i s with
  | zero => exact ⟨s, rfl, Good.of_log h rfl⟩
  | succ n ih =>
    rw [State.closeallLoop]
    by_cases hs : (s.file (t, i)).status = .FD_OPENED
    · obtain ⟨s', inside, hclose, hgood, hout⟩ := h.close hp hs (some (i + 1))
      rw [if_pos hs, hclose]
      dsimp only [Bind.bind, Except.bind]
      cases inside with
      | true => exact ⟨s', rfl, hgood⟩
      | false =>
        obtain ⟨hpc, hlog⟩ := hout rfl
        obtain ⟨s'', hloop, hgood'⟩ := ih (i + 1) hgood.ok (by rw [hpc]; exact hp)
        exact ⟨s'', hloop, hgood'.trans hlog⟩
    · rw [if_neg hs]
      exact ih (i + 1) h hp

/-! ### The operations -/

theorem FdOk.fileOpen (h : FdOk s) (hp : s.Idle p) (flags : BitVec 32) :
    ∃ s', s.fileOpen p flags = .ok s' ∧ Good s s' := by
  unfold State.fileOpen
  cases accessMode flags with
  | none => exact ⟨s, rfl, Good.of_log h rfl⟩
  | some canWrite =>
    dsimp only
    rcases h.fdArrayAlloc hp NO_FD with ⟨ret, halloc⟩ | ⟨e, hs, hpos, halloc⟩
    · rw [halloc]
      exact ⟨s, rfl, Good.of_log h rfl⟩
    · rw [halloc]
      refine ⟨_, rfl, Good.of_log ?_ rfl⟩
      have hentry := (h.entry e).alloc (p := p) hs
      have hout := ((h.entry e).of_none hs).2.1
      apply h.change hpos (by rw [hp.1]; exact Pc.only_user) Pc.only_opening fun _ _ => rfl
      rw [hout, show (Pc.opening e flags : Pc τ ν).role e = .opening from if_pos rfl]
      exact hentry

omit [DecidableEq π] [DecidableEq ν] in
theorem fdArrayOpen_eq (hs : f.status = .FD_INIT) (hn : f.node.isSome) :
    (s.setFile e f).fdArrayOpen e
      = .ok (s.setFile e { f with status := .FD_OPENED, openCount := f.openCount + 1 }) := by
  unfold State.fdArrayOpen
  rw [State.setFile_file, State.setFile_setFile]
  exact if_pos ⟨hs, hn⟩

/-- The end of `file_open` by a process with the reference `n`. -/
theorem FdOk.fileOpenEnd (h : FdOk s) {o : Option ν} (hopens : Opens (roles s.pc e p) o)
    (hold : (s.pc p).Only e) (flags : BitVec 32) (pos : ℤ)
    (hout : outstanding e log = some (some n))
    (hlog : ∀ e', e' ≠ e → outstanding e' log = outstanding e' s.log) :
    ∃ s', State.fileOpenEnd p e flags n pos { s with log := log } = .ok s' ∧ FdOk s' ∧
      s'.log = log := by
  obtain ⟨hs, hc, -, -, -⟩ := (h.entry e).of_opens hopens
  have hpos : 0 < s.filesCount e.1 := h.pos (by rw [hs]; exact nofun)
  unfold State.fileOpenEnd
  dsimp only
  rw [fdArrayOpen_eq (by exact hs) (by rfl)]
  refine ⟨_, rfl, ?_, rfl⟩
  apply h.change hpos hold Pc.only_user hlog
  rw [hout]
  exact (h.entry e).openEnd hopens rfl rfl rfl

theorem FdOk.fileOpenFree (h : FdOk s) (hopens : Opens (roles s.pc e p) none)
    (hold : (s.pc p).Only e) :
    ∃ s', (s.fdArrayFreeInit e).map (fun s => s.goto p .user) = .ok s' ∧ Good s s' := by
  obtain ⟨hs, hc, -, hout, -⟩ := (h.entry e).of_opens hopens
  have hpos : 0 < s.filesCount e.1 := h.pos (by rw [hs]; exact nofun)
  unfold State.fdArrayFreeInit
  rw [if_pos ⟨hs, hc⟩]
  refine ⟨_, rfl, Good.of_log ?_ rfl⟩
  apply h.change hpos hold Pc.only_user fun _ _ => rfl
  rw [hout]
  exact (h.entry e).freeInit hopens

theorem FdOk.fileOpenVfs (h : FdOk s) {flags : BitVec 32} (hp : s.pc p = .opening e flags)
    (node : Option ν) : ∃ s', s.fileOpenVfs p e flags node = .ok s' ∧ Good s s' := by
  have hold : (s.pc p).Only e := by
    rw [hp]
    exact Pc.only_opening
  have hopens : Opens (roles s.pc e p) none := by
    unfold roles
    rw [hp, Pc.role, if_pos rfl]
    exact .opening
  obtain ⟨hs, hc, hn, hout, -⟩ := (h.entry e).of_opens hopens
  have hpos : 0 < s.filesCount e.1 := h.pos (by rw [hs]; exact nofun)
  unfold State.fileOpenVfs
  cases node with
  | none => exact h.fileOpenFree hopens hold
  | some n =>
    dsimp only
    split
    case isTrue happend =>
      refine ⟨_, rfl, Good.of_take (e := e) (n := n) ?_ rfl⟩
      apply h.change hpos hold Pc.only_opened fun e' he' => outstanding_take_of_ne he'
      have hentry := (h.entry e).opens hopens (.opened n)
      rw [outstanding_take hout, show (Pc.opened e flags n : Pc τ ν).role e = .opened n from
        if_pos rfl]
      exact hentry.congr rfl rfl rfl
    case isFalse happend =>
      obtain ⟨s', hs', hok, hlog⟩ := h.fileOpenEnd hopens hold flags 0 (outstanding_take hout)
        fun e' he' => outstanding_take_of_ne he'
      exact ⟨s', hs', Good.of_take hok hlog⟩

theorem FdOk.fileOpenStat (h : FdOk s) {flags : BitVec 32} (hp : s.pc p = .opened e flags n)
    (size : Option ℕ) : ∃ s', s.fileOpenStat p e flags n size = .ok s' ∧ Good s s' := by
  have hold : (s.pc p).Only e := by
    rw [hp]
    exact Pc.only_opened
  have hopens : Opens (roles s.pc e p) (some n) := by
    unfold roles
    rw [hp, Pc.role, if_pos rfl]
    exact .opened n
  obtain ⟨hs, hc, hn, hout, -⟩ := (h.entry e).of_opens hopens
  have hpos : 0 < s.filesCount e.1 := h.pos (by rw [hs]; exact nofun)
  unfold State.fileOpenStat
  cases size with
  | none =>
    refine ⟨_, rfl, Good.of_give (e := e) (n := n) ?_ rfl (outstanding_give hout)⟩
    have hentry := (h.entry e).opens hopens .unopening
    have hchange : FdOk { s with
        file := update s.file e (s.file e)
        pc := update s.pc p (.unopening e)
        log := .give e n :: s.log } := by
      apply h.change hpos hold Pc.only_unopening fun e' he' => outstanding_give_of_ne he'
      rw [outstanding_give hout, show (Pc.unopening e : Pc τ ν).role e = .unopening from if_pos rfl]
      exact hentry
    rw [update_eq_self] at hchange
    exact hchange
  | some size =>
    obtain ⟨s', hs', hok, hlog⟩ := h.fileOpenEnd hopens hold flags size hout fun _ _ => rfl
    exact ⟨s', hs', Good.of_log hok hlog⟩

theorem FdOk.fileOpenUndone (h : FdOk s) (hp : s.pc p = .unopening e) :
    ∃ s', s.fileOpenUndone p e = .ok s' ∧ Good s s' := by
  apply h.fileOpenFree
  · unfold roles
    rw [hp, Pc.role, if_pos rfl]
    exact .unopening
  · rw [hp]
    exact Pc.only_unopening

theorem FdOk.fileOp (h : FdOk s) (hp : s.Idle p) (fd : ℤ) (op : Op) (allowed : File ν → Bool) :
    ∃ s', s.fileOp p fd op allowed = .ok s' ∧ Good s s' := by
  obtain ⟨o, ho, hopen⟩ := h.fd2file hp fd
  unfold State.fileOp
  rw [ho]
  dsimp only [Bind.bind, Except.bind]
  cases o with
  | none => exact ⟨s, rfl, Good.of_log h rfl⟩
  | some e =>
    dsimp only
    split
    case isTrue hallowed =>
      obtain ⟨s', hs', hgood, -⟩ := h.acquire hp.1 (hopen e rfl) op
      exact ⟨s', hs', hgood⟩
    case isFalse hallowed => exact ⟨s, rfl, Good.of_log h rfl⟩

theorem FdOk.fileSeek (h : FdOk s) (hp : s.Idle p) (fd pos : ℤ) (whence : ℕ) :
    ∃ s', s.fileSeek p fd pos whence = .ok s' ∧ Good s s' := by
  obtain ⟨o, ho, hopen⟩ := h.fd2file hp fd
  unfold State.fileSeek
  rw [ho]
  dsimp only [Bind.bind, Except.bind]
  cases o with
  | none => exact ⟨s, rfl, Good.of_log h rfl⟩
  | some e =>
    have hacquire := fun op => h.acquire hp.1 (hopen e rfl) op
    dsimp only
    split
    case h_1 =>
      obtain ⟨s', hs', hgood, -⟩ := hacquire (.tryseek pos)
      exact ⟨s', hs', hgood⟩
    case h_2 =>
      obtain ⟨s', hs', hgood, -⟩ := hacquire (.tryseek (pos + (s.file e).pos))
      exact ⟨s', hs', hgood⟩
    case h_3 =>
      obtain ⟨s', hs', hgood, -⟩ := hacquire (.seekEnd pos)
      exact ⟨s', hs', hgood⟩
    case h_4 =>
      obtain ⟨s', hs', hgood, hpc, hlog⟩ := hacquire (.tryseek pos)
      obtain ⟨s'', hs'', hgood'⟩ := hgood.ok.release hpc
      rw [hs']
      exact ⟨s'', hs'', hgood'.trans hlog⟩

theorem FdOk.opReturned (h : FdOk s) {op : Op} (hp : s.pc p = .using e op) (ret : ℤ) (n : ℕ) :
    ∃ s', s.opReturned p e op ret n = .ok s' ∧ Good s s' := by
  have hpos : 0 < s.filesCount e.1 := by
    obtain ⟨hstatus, -⟩ := (h.entry e).of_uses (role_of_using hp)
    apply h.pos
    intro hnone
    rcases hstatus with hs | hs <;> exact nomatch hnone.symm.trans hs
  -- the position is stored before the release
  have hmoved : ∀ pos, ∃ s', (s.setFile e { s.file e with pos := pos }).fdArrayRelease p e = .ok s' ∧
      Good s s' := by
    intro pos
    have htouch : FdOk (s.setFile e { s.file e with pos := pos }) := h.touch hpos rfl rfl rfl
    obtain ⟨s', hs', hgood⟩ := htouch.release (p := p) (e := e) hp
    exact ⟨s', hs', hgood.trans rfl⟩
  have htransfer : ∃ s', (if (s.file e).status = .FD_OPENED then
      (s.setFile e { s.file e with pos := (s.file e).pos + n }).fdArrayRelease p e
      else s.fdArrayRelease p e) = .ok s' ∧ Good s s' := by
    split
    case isTrue hs => exact hmoved _
    case isFalse hs => exact h.release hp
  cases op with
  | read => exact htransfer
  | write => exact htransfer
  | fstat => exact h.release hp
  | fsync => exact h.release hp
  | getdirentry => exact h.release hp
  | tryseek pos =>
    unfold State.opReturned
    dsimp only
    split
    case isTrue hret => exact hmoved pos
    case isFalse hret => exact h.release hp
  | seekEnd pos =>
    unfold State.opReturned
    dsimp only
    split
    case isTrue hret =>
      refine ⟨_, rfl, Good.of_log ?_ rfl⟩
      have hentry := h.entry e
      have hrole : update (roles s.pc e) p .uses = roles s.pc e := by
        rw [← role_of_using hp]
        exact update_eq_self p _
      have hchange : FdOk { s with
          file := update s.file e (s.file e)
          pc := update s.pc p (.using e (.tryseek (pos + n))) } := by
        apply h.change hpos (by rw [hp]; exact Pc.only_using) Pc.only_using fun _ _ => rfl
        rw [show (Pc.using e (.tryseek (pos + n)) : Pc τ ν).role e = .uses from if_pos rfl, hrole]
        exact hentry
      rw [update_eq_self] at hchange
      exact hchange
    case isFalse hret => exact h.release hp

theorem FdOk.fileClose (h : FdOk s) (hp : s.Idle p) (fd : ℤ) :
    ∃ s', s.fileClose p fd = .ok s' ∧ Good s s' := by
  obtain ⟨o, ho, hopen⟩ := h.fd2file hp fd
  unfold State.fileClose
  rw [ho]
  dsimp only [Bind.bind, Except.bind]
  cases o with
  | none => exact ⟨s, rfl, Good.of_log h rfl⟩
  | some e =>
    obtain ⟨s', inside, hs', hgood, -⟩ := h.close hp.1 (hopen e rfl) none
    dsimp only
    rw [hs']
    exact ⟨s', rfl, hgood⟩

theorem FdOk.filesCloseall (h : FdOk s) (hp : s.Idle p) :
    ∃ s', s.filesCloseall p = .ok s' ∧ Good s s' := by
  unfold State.filesCloseall
  cases ht : s.filesp p with
  | none => exact absurd ht hp.2
  | some t =>
    dsimp only
    rw [if_pos (h.counted p t ht)]
    exact h.closeallLoop t _ 2 hp.1

theorem FdOk.freed (h : FdOk s) {next : Option ℕ} (hp : s.pc p = .freeing e next) :
    ∃ s', s.freed p e next = .ok s' ∧ Good s s' := by
  have hold : (s.pc p).Only e := by
    rw [hp]
    exact Pc.only_freeing
  have hrole : roles s.pc e p = .freeing := by
    unfold roles
    rw [hp]
    exact if_pos rfl
  obtain ⟨hs, hc, hout, -⟩ := (h.entry e).of_freeing hrole
  have hok : FdOk ((s.setFile e { s.file e with status := .FD_NONE }).goto p .user) := by
    apply h.change (h.pos (by rw [hs]; exact nofun)) hold Pc.only_user fun _ _ => rfl
    rw [hout]
    exact (h.entry e).freed hrole
  unfold State.freed
  cases next with
  | none => exact ⟨_, rfl, Good.of_log hok rfl⟩
  | some i =>
    obtain ⟨s', hs', hgood⟩ := hok.closeallLoop (p := p) e.1 (FILES_STRUCT_NENTRY - i) i
      (update_self _ _ _)
    exact ⟨s', hs', hgood.trans rfl⟩

/-! ### Copying -/

omit [DecidableEq π] [DecidableEq ν] in
/-- `fd_array_dup` to an entry that has just been taken. -/
theorem fdArrayDup_eq {dst src : Entry τ} (hne : src ≠ dst) (hdst : f.status = .FD_INIT)
    (hs : (s.file src).status = .FD_OPENED) (hn : (s.file src).node = some n) :
    (s.setFile dst f).fdArrayDup dst src = .ok ((s.record (.take dst n)).setFile dst
      { f with
        pos := (s.file src).pos
        readable := (s.file src).readable
        writable := (s.file src).writable
        node := some n
        status := .FD_OPENED
        openCount := f.openCount + 1 }) := by
  have hfile : (s.setFile dst f).file src = s.file src := State.setFile_file_of_ne hne f s
  unfold State.fdArrayDup
  rw [hfile, hn]
  dsimp only
  rw [State.setFile_file, if_pos ⟨hdst, hs⟩]
  show State.fdArrayOpen dst (((s.record (.take dst n)).setFile dst f).setFile dst _) = _
  rw [State.setFile_setFile, fdArrayOpen_eq (by exact hdst) (by rfl)]

omit [DecidableEq π] in
/-- A free entry that becomes a copy of an open one. -/
theorem EntriesOk.dup {dst src : Entry τ} (h : EntriesOk s) (hdst : (s.file dst).status = .FD_NONE)
    (hs : (s.file src).status = .FD_OPENED) (hinit : f.status = .FD_INIT)
    (hc : f.openCount = (s.file dst).openCount) :
    ∃ n f', (s.setFile dst f).fdArrayDup dst src = .ok ((s.record (.take dst n)).setFile dst f') ∧
      EntriesOk ((s.record (.take dst n)).setFile dst f') := by
  obtain ⟨k, n, -, -, -, hn, -⟩ := (h src).of_opened hs
  have hne : src ≠ dst := by
    intro he
    rw [he, hdst] at hs
    exact nomatch hs
  refine ⟨n, _, fdArrayDup_eq hne hinit hs hn, ?_⟩
  apply h.setFile fun e' he' => outstanding_take_of_ne he'
  obtain ⟨-, hout, -⟩ := (h dst).of_none hdst
  rw [outstanding_take hout]
  exact (h dst).dup hdst rfl (by rw [hc]) rfl

omit [DecidableEq π] in
theorem FdOk.fileDup (h : FdOk s) (hp : s.Idle p) (fd1 fd2 : ℤ) :
    ∃ s', s.fileDup p fd1 fd2 = .ok s' ∧ Good s s' := by
  obtain ⟨o, ho, hopen⟩ := h.fd2file hp fd1
  unfold State.fileDup
  rw [ho]
  dsimp only [Bind.bind, Except.bind]
  cases o with
  | none => exact ⟨s, rfl, Good.of_log h rfl⟩
  | some e1 =>
    dsimp only
    rcases h.fdArrayAlloc hp fd2 with ⟨ret, halloc⟩ | ⟨e2, hs, hpos, halloc⟩
    · rw [halloc]
      exact ⟨s, rfl, Good.of_log h rfl⟩
    · rw [halloc]
      obtain ⟨n, f', hdup, hok⟩ := h.entry.dup (f := { s.file e2 with status := .FD_INIT, node := none })
        hs (hopen e1 rfl) rfl rfl
      exact ⟨_, hdup, Good.of_take (e := e2) (n := n)
        ⟨hok, h.counted, h.unused_update hpos⟩ rfl⟩

omit [DecidableEq π] in
/-- The loop of `dup_files`, which changes the table `dst` only. -/
theorem EntriesOk.dupLoop (dst src : τ) (n i : ℕ) (h : EntriesOk s)
    (hfree : ∀ j, i ≤ j → (s.file (dst, j)).status = .FD_NONE) :
    ∃ s' calls, State.dupLoop dst src n i s = .ok s' ∧ EntriesOk s' ∧ s'.filesp = s.filesp ∧
      s'.filesCount = s.filesCount ∧ (∀ e : Entry τ, e.1 ≠ dst → s'.file e = s.file e) ∧
      s'.log = calls ++ s.log ∧ ∀ e n, Call.give e n ∉ calls := by
  induction n generalizing i s with
  | zero => exact ⟨s, [], rfl, h, rfl, rfl, fun _ _ => rfl, rfl, fun _ _ => List.not_mem_nil⟩
  | succ n ih =>
    rw [State.dupLoop]
    by_cases hs : (s.file (src, i)).status = .FD_OPENED
    · rw [if_pos hs]
      obtain ⟨m, f', hdup, hok⟩ := h.dup (f := { s.file (dst, i) with status := .FD_INIT })
        (hfree i le_rfl) hs rfl rfl
      dsimp only [Bind.bind, Except.bind]
      rw [hdup]
      have hother : ∀ e : Entry τ, e ≠ (dst, i) →
          ((s.record (.take (dst, i) m)).setFile (dst, i) f').file e = s.file e :=
        fun e he => State.setFile_file_of_ne he _ _
      obtain ⟨s', calls, hs', hok', hfilesp, hcount, hframe, hlog, hgive⟩ := ih (i + 1) hok (by
        intro j hj
        have hne : ((dst, j) : Entry τ) ≠ (dst, i) := by
          intro he
          have hji : j = i := congrArg Prod.snd he
          omega
        rw [hother _ hne]
        exact hfree j (by omega))
      refine ⟨s', calls ++ [.take (dst, i) m], hs', hok', hfilesp, hcount, ?_, ?_, ?_⟩
      · intro e he
        rw [hframe e he, hother]
        intro hee
        exact he (congrArg Prod.fst hee)
      · rw [hlog, List.append_assoc]
        rfl
      · intro e n' hmem
        rcases List.mem_append.mp hmem with hmem | hmem
        · exact hgive e n' hmem
        · exact nomatch List.mem_singleton.mp hmem
    · rw [if_neg hs]
      exact ih (i + 1) h fun j hj => hfree j (by omega)

omit [DecidableEq π] in
/-- `files_create` empties a table that nobody uses. -/
theorem FdOk.filesCreate (h : FdOk s) {t : τ} (ht : s.filesCount t = 0) :
    EntriesOk (s.filesCreate t) := by
  intro e
  show EntryOk (roles s.pc e) (if e.1 = t then File.init e.2 else s.file e) _
  by_cases he : e.1 = t
  · rw [if_pos he]
    obtain ⟨-, hout, haway⟩ := (h.entry e).of_none (h.unused e (by rw [he]; exact ht))
    show EntryOk _ _ (outstanding e s.log)
    rw [hout]
    exact .unused rfl rfl haway
  · rw [if_neg he]
    exact h.entry e

/-- The new process gets the table. -/
theorem EntriesOk.addProcess {t : τ} (h : EntriesOk s) (q : π)
    (hcounted : ∀ p' t', p' ≠ q → s.filesp p' = some t' → t' ≠ t → 0 < s.filesCount t')
    (hunused : ∀ e : Entry τ, e.1 ≠ t → s.filesCount e.1 = 0 → (s.file e).status = .FD_NONE) :
    FdOk (s.addProcess q t) := by
  have hcount : ∀ t', t' ≠ t → (s.addProcess q t).filesCount t' = s.filesCount t' :=
    fun t' ht' => update_of_ne ht' _ _
  have hself : (s.addProcess q t).filesCount t = s.filesCount t + 1 := update_self _ _ _
  constructor
  · exact h
  · intro p' t' hp'
    by_cases ht' : t' = t
    · rw [ht', hself]
      exact Nat.succ_pos _
    · rw [hcount t' ht']
      have hfilesp : update s.filesp q (some t) p' = some t' := hp'
      by_cases hpq : p' = q
      · rw [hpq, update_self] at hfilesp
        exact absurd (Option.some.inj hfilesp).symm ht'
      · rw [update_of_ne hpq] at hfilesp
        exact hcounted p' t' hpq hfilesp ht'
  · intro e he
    by_cases het : e.1 = t
    · rw [het, hself] at he
      exact absurd he (Nat.succ_ne_zero _)
    · rw [hcount _ het] at he
      exact hunused e het he

theorem FdOk.copyFiles (h : FdOk s) (hp : s.Idle p) (q : π) (share : Bool) {answer : Option τ}
    (hanswer : ∀ t, answer = some t → s.filesCount t = 0) :
    ∃ s', s.copyFiles p q share answer = .ok s' ∧ Good s s' := by
  unfold State.copyFiles
  cases hsrc : s.filesp p with
  | none => exact absurd hsrc hp.2
  | some src =>
    have hpos := h.counted p src hsrc
    dsimp only
    split
    case isTrue hshare =>
      refine ⟨_, rfl, Good.of_log ?_ rfl⟩
      exact h.entry.addProcess q (fun p' t' _ hp' _ => h.counted p' t' hp') fun e _ he => h.unused e he
    case isFalse hshare =>
      cases answer with
      | none => exact ⟨s, rfl, Good.of_log h rfl⟩
      | some t =>
        have ht := hanswer t rfl
        have hne : src ≠ t := by
          intro hst
          rw [hst, ht] at hpos
          exact lt_irrefl 0 hpos
        have hcreate := h.filesCreate ht
        have hcount : (s.filesCreate t).filesCount t = 0 := update_self _ _ _
        have hcount' : ∀ t', t' ≠ t → (s.filesCreate t).filesCount t' = s.filesCount t' :=
          fun t' ht' => update_of_ne ht' _ _
        obtain ⟨s', calls, hs', hok, hfilesp, hcount'', hframe, hlog, hgive⟩ :=
          EntriesOk.dupLoop (s := { s.filesCreate t with
            pwd := update (s.filesCreate t).pwd t ((s.filesCreate t).pwd src) }) t src
            FILES_STRUCT_NENTRY 0 hcreate (by
              intro j _
              show (if t = t then File.init j else s.file (t, j)).status = .FD_NONE
              rw [if_pos rfl]
              rfl)
        show ∃ s', ((s.filesCreate t).dupFiles t src).map (fun s => s.addProcess q t) = .ok s' ∧ _
        unfold State.dupFiles
        rw [if_pos ⟨hcount, by rw [hcount' src hne]; exact hpos⟩]
        rw [hs']
        refine ⟨_, rfl, ?_, calls, hlog, fun e n hmem => absurd hmem (hgive e n)⟩
        apply hok.addProcess
        · intro p' t' _ hp' ht'
          rw [hfilesp] at hp'
          rw [hcount'']
          show 0 < (s.filesCreate t).filesCount t'
          rw [hcount' t' ht']
          exact h.counted p' t' hp'
        · intro e he hzero
          rw [hcount''] at hzero
          have hzero' : (s.filesCreate t).filesCount e.1 = 0 := hzero
          rw [hcount' _ he] at hzero'
          rw [hframe e he]
          show (if e.1 = t then File.init e.2 else s.file e).status = .FD_NONE
          rw [if_neg he]
          exact h.unused e hzero'

/-! ### Steps and runs -/

/-- Every step keeps the invariant. -/
theorem FdOk.step (h : FdOk s) {r : Except Assertion (State π τ ν)} (hstep : Step p s r) :
    ∃ s', r = .ok s' ∧ Good s s' := by
  cases hstep with
  | fileOpen flags hp => exact h.fileOpen hp flags
  | fileOpenVfs e flags node hp => exact h.fileOpenVfs hp node
  | fileOpenStat e flags n size hp => exact h.fileOpenStat hp size
  | fileOpenUndone e hp => exact h.fileOpenUndone hp
  | fileRead fd hp => exact h.fileOp hp fd .read _
  | fileWrite fd hp => exact h.fileOp hp fd .write _
  | fileSeek fd pos whence hp => exact h.fileSeek hp fd pos whence
  | fileFstat fd hp => exact h.fileOp hp fd .fstat _
  | fileFsync fd hp => exact h.fileOp hp fd .fsync _
  | fileGetdirentry fd hp => exact h.fileOp hp fd .getdirentry _
  | opReturned e op ret n hp => exact h.opReturned hp ret n
  | fileClose fd hp => exact h.fileClose hp fd
  | filesCloseall hp => exact h.filesCloseall hp
  | freed e next hp => exact h.freed hp
  | fileDup fd1 fd2 hp => exact h.fileDup hp fd1 fd2
  | copyFiles q share answer hp hq hanswer => exact h.copyFiles hp q share hanswer

theorem fdOk_run {s₀ : State π τ ν} (h₀ : Initial s₀) (hrun : ReflTransGen Next s₀ s) : FdOk s := by
  apply Transition.invariant _ hrun (FdOk.of_initial h₀)
  rintro a b ha ⟨q, hstep⟩
  obtain ⟨s', hs', hgood⟩ := ha.step hstep
  cases hs'
  exact hgood.ok

/-- What the status of an entry says about its open count and about the reference taken for it. -/
def State.EntryState (e : Entry τ) (s : State π τ ν) : Prop :=
  match (s.file e).status with
  | .FD_NONE => (s.file e).openCount = 0 ∧ outstanding e s.log = some none
  | .FD_INIT => (s.file e).openCount = 0 ∧ (s.file e).node = none ∧
      -- a reference is still in the hands of the process that opens the entry
      (outstanding e s.log = some none ∨
        ∃ p flags n, s.pc p = .opened e flags n ∧ outstanding e s.log = some (some n))
  | .FD_OPENED => ((s.file e).openCount : ℕ∞) = 1 + {p | s.InFlight p e}.encard ∧
      ∃ n, (s.file e).node = some n ∧ outstanding e s.log = some (some n)
  | .FD_CLOSED => ((s.file e).openCount : ℕ∞) = {p | s.InFlight p e}.encard ∧
      (0 < (s.file e).openCount →
        ∃ n, (s.file e).node = some n ∧ outstanding e s.log = some (some n)) ∧
      ((s.file e).openCount = 0 → outstanding e s.log = some none ∧
        ∃! p, ∃ next, s.pc p = .freeing e next)

omit [DecidableEq π] [DecidableEq ν] in
theorem users_roles : users (roles s.pc e) = {p | s.InFlight p e} := by
  ext q
  exact inFlight_iff.symm

omit [DecidableEq π] [DecidableEq ν] in
theorem freeing_iff {q : π} : (∃ next, s.pc q = .freeing e next) ↔ roles s.pc e q = .freeing := by
  unfold roles
  cases hpc : s.pc q with
  | freeing e' next =>
    show (∃ next', Pc.freeing e' next = Pc.freeing e next') ↔
      (if e' = e then Role.freeing else .away) = .freeing
    by_cases he : e' = e
    · rw [if_pos he, he]
      exact iff_of_true ⟨next, rfl⟩ rfl
    · rw [if_neg he]
      apply iff_of_false _ nofun
      rintro ⟨next', hnext⟩
      cases hnext
      exact he rfl
  | user => exact iff_of_false nofun nofun
  | opening e' flags =>
    show _ ↔ (if e' = e then Role.opening else .away) = .freeing
    split <;> exact iff_of_false nofun nofun
  | opened e' flags n =>
    show _ ↔ (if e' = e then Role.opened n else .away) = .freeing
    split <;> exact iff_of_false nofun nofun
  | unopening e' =>
    show _ ↔ (if e' = e then Role.unopening else .away) = .freeing
    split <;> exact iff_of_false nofun nofun
  | «using» e' op =>
    show _ ↔ (if e' = e then Role.uses else .away) = .freeing
    split <;> exact iff_of_false nofun nofun

omit [DecidableEq π] [DecidableEq ν] in
theorem opened_of_role (hp : roles s.pc e p = .opened n) : ∃ flags, s.pc p = .opened e flags n := by
  unfold roles at hp
  cases hpc : s.pc p with
  | opened e' flags m =>
    rw [hpc, Pc.role] at hp
    by_cases he : e' = e
    · rw [if_pos he] at hp
      cases hp
      exact ⟨flags, by rw [he]⟩
    · rw [if_neg he] at hp
      exact nomatch hp
  | user => rw [hpc] at hp; exact nomatch hp
  | opening e' flags => rw [hpc, Pc.role] at hp; split at hp <;> exact nomatch hp
  | unopening e' => rw [hpc, Pc.role] at hp; split at hp <;> exact nomatch hp
  | «using» e' op => rw [hpc, Pc.role] at hp; split at hp <;> exact nomatch hp
  | freeing e' next => rw [hpc, Pc.role] at hp; split at hp <;> exact nomatch hp

omit [DecidableEq π] in
theorem FdOk.entryState (h : FdOk s) (e : Entry τ) : s.EntryState e := by
  have hentry := h.entry e
  generalize hout : outstanding e s.log = out at hentry
  unfold State.EntryState
  cases hentry with
  | unused hs hc haway =>
    rw [hs]
    exact ⟨hc, hout⟩
  | @opening o p hs hc hn hp haway =>
    rw [hs]
    refine ⟨hc, hn, ?_⟩
    cases hr : roles s.pc e p with
    | opened n =>
      rw [hr] at hp
      cases hp
      obtain ⟨flags, hpc⟩ := opened_of_role hr
      exact Or.inr ⟨p, flags, n, hpc, hout⟩
    | opening =>
      rw [hr] at hp
      cases hp
      exact Or.inl hout
    | unopening =>
      rw [hr] at hp
      cases hp
      exact Or.inl hout
    | away => rw [hr] at hp; exact nomatch hp
    | uses => rw [hr] at hp; exact nomatch hp
    | freeing => rw [hr] at hp; exact nomatch hp
  | opened k n hs hc hk hroles hn =>
    rw [hs]
    refine ⟨?_, n, hn, hout⟩
    rw [← users_roles, hk, hc, add_comm]
    rfl
  | closed k n hs hc hk hroles hn =>
    rw [hs]
    refine ⟨?_, fun _ => ⟨n, hn, hout⟩, fun h0 => ?_⟩
    · rw [← users_roles, hk, hc]
    · rw [hc] at h0
      exact absurd h0 (Nat.succ_ne_zero k)
  | freeing p hs hc hp haway =>
    rw [hs]
    refine ⟨?_, fun hpos => ?_, fun _ => ⟨hout, p, freeing_iff.mpr hp, ?_⟩⟩
    · have hempty : {q | s.InFlight q e} = (∅ : Set π) := by
        apply Set.eq_empty_of_forall_notMem
        intro q hq
        have huses := inFlight_iff.mp hq
        by_cases hqp : q = p
        · rw [hqp, hp] at huses
          exact nomatch huses
        · rw [haway q hqp] at huses
          exact nomatch huses
      rw [hempty, hc, Set.encard_empty]
      rfl
    · omega
    · intro q hq
      have hfree := freeing_iff.mp hq
      by_contra hqp
      rw [haway q hqp] at hfree
      exact nomatch hfree

/-- **The descriptor table.**  For any processes that share tables of open files, and any
interleaving: every entry is in the state its status says; no assertion stops a step; and each
reference taken for an entry is given back once, with no operation in flight on the entry. -/
theorem descriptor_table {s₀ : State π τ ν} (h₀ : Initial s₀) (hrun : ReflTransGen Next s₀ s) :
    (∀ e, s.EntryState e) ∧
    ∀ p r, Step p s r → ∃ s', r = .ok s' ∧ ∃ calls, s'.log = calls ++ s.log ∧
      ∀ e n, Call.give e n ∈ calls → ∀ q, ¬s'.InFlight q e := by
  have h := fdOk_run h₀ hrun
  refine ⟨h.entryState, ?_⟩
  intro p r hstep
  obtain ⟨s', hs', hgood⟩ := h.step hstep
  exact ⟨s', hs', hgood.calls⟩

/-- Two processes share a table. -/
def sharing : State Bool ℕ ℕ :=
  ⟨fun e => File.init e.2, fun _ => none, fun _ => 2, fun _ => some 0, fun _ => .user, []⟩

theorem initial_sharing : Initial sharing :=
  ⟨fun _ _ => rfl, fun _ => rfl, rfl, fun _ _ _ => Nat.succ_pos 1⟩

/-- One process has opened a file and is stopped in a read of it; the other closes the descriptor.  The
reader is the last one out and gives the node back. -/
theorem descriptor_table_sharing : ∃ s s' : State Bool ℕ ℕ,
    s.pc true = .using (0, 0) .read ∧ (s.file (0, 0)).status = .FD_CLOSED ∧
    (s.file (0, 0)).openCount = 1 ∧ (∀ e, s.EntryState e) ∧
    Step true s (.ok s') ∧ s'.pc true = .freeing (0, 0) none ∧
    s'.log = [.give (0, 0) 7, .take (0, 0) 7] ∧ ∀ q, ¬s'.InFlight q (0, 0) := by
  have hopen : ReflTransGen Next sharing _ :=
    .single ⟨true, Step.fileOpen O_RDONLY ⟨rfl, nofun⟩⟩
  have hopened := hopen.tail ⟨true, Step.fileOpenVfs (0, 0) O_RDONLY (some 7) rfl⟩
  have hreading := hopened.tail ⟨true, Step.fileRead 0 ⟨rfl, Option.some_ne_none 0⟩⟩
  have hrun := hreading.tail ⟨false, Step.fileClose 0 ⟨rfl, Option.some_ne_none 0⟩⟩
  obtain ⟨hentry, hsteps⟩ := descriptor_table initial_sharing hrun
  obtain ⟨s', hs', calls, hlog, hcalls⟩ := hsteps true _ (Step.opReturned (0, 0) .read 0 5 rfl)
  cases hs'
  refine ⟨_, _, rfl, rfl, rfl, hentry, Step.opReturned (0, 0) .read 0 5 rfl, ?_⟩
  refine ⟨rfl, rfl, hcalls (0, 0) 7 ?_⟩
  have hhead : [Call.give (0, 0) 7] = calls := List.append_cancel_right hlog
  rw [← hhead]
  exact List.mem_singleton_self _

end Ucore.Fd
