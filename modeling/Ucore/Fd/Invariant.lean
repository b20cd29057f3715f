import Mathlib.Data.Set.Card
import Ucore.Fd.Model

/-!
# The life of an entry

`EntryOk role f out` says that one entry of a table is in order: `f` is the entry, `role` says what
each process is doing with it, and `out` is the reference taken for it and not given back.  Each
lemma of this file is one change of an entry by one process.
-/

namespace Ucore.Fd

open Ledger Function

variable {π τ ν : Type}

/-- What a process is doing with an entry. -/
inductive Role (ν : Type)
  | away
  | opening
  | opened (n : ν)
  | unopening
  | uses
  | freeing
  deriving DecidableEq

def Pc.role [DecidableEq τ] (e : Entry τ) : Pc τ ν → Role ν
  | .user => .away
  | .opening e' _ => if e' = e then .opening else .away
  | .opened e' _ n => if e' = e then .opened n else .away
  | .unopening e' => if e' = e then .unopening else .away
  | .using e' _ => if e' = e then .uses else .away
  | .freeing e' _ => if e' = e then .freeing else .away

/-- A process in `file_open`, and the reference it has taken. -/
inductive Opens : Role ν → Option ν → Prop
  | opening : Opens .opening none
  | opened (n : ν) : Opens (.opened n) (some n)
  | unopening : Opens .unopening none

/-- The processes with an operation in flight. -/
def users (role : π → Role ν) : Set π := {p | role p = .uses}

inductive EntryOk (role : π → Role ν) : File ν → Option (Option ν) → Prop
  | unused {f : File ν} (hs : f.status = .FD_NONE) (hc : f.openCount = 0)
      (haway : ∀ p, role p = .away) : EntryOk role f (some none)
  | opening {f : File ν} {out : Option ν} (p : π) (hs : f.status = .FD_INIT) (hc : f.openCount = 0)
      (hnode : f.node = none) (hp : Opens (role p) out) (haway : ∀ q, q ≠ p → role q = .away) :
      EntryOk role f (some out)
  | opened {f : File ν} (k : ℕ) (n : ν) (hs : f.status = .FD_OPENED) (hc : f.openCount = k + 1)
      (hk : (users role).encard = k) (hroles : ∀ p, role p = .away ∨ role p = .uses)
      (hnode : f.node = some n) : EntryOk role f (some (some n))
  | closed {f : File ν} (k : ℕ) (n : ν) (hs : f.status = .FD_CLOSED) (hc : f.openCount = k + 1)
      (hk : (users role).encard = (k + 1 : ℕ)) (hroles : ∀ p, role p = .away ∨ role p = .uses)
      (hnode : f.node = some n) : EntryOk role f (some (some n))
  | freeing {f : File ν} (p : π) (hs : f.status = .FD_CLOSED) (hc : f.openCount = 0)
      (hp : role p = .freeing) (haway : ∀ q, q ≠ p → role q = .away) : EntryOk role f (some none)

variable {role : π → Role ν} {f f' : File ν} {out : Option (Option ν)} {p : π} {n : ν} {r : Role ν}

/-- The three fields that matter. -/
theorem EntryOk.congr (h : EntryOk role f out) (hs : f'.status = f.status)
    (hc : f'.openCount = f.openCount) (hn : f'.node = f.node) : EntryOk role f' out := by
  cases h with
  | unused hs' hc' haway => exact .unused (hs.trans hs') (hc.trans hc') haway
  | opening p hs' hc' hn' hp haway =>
    exact .opening p (hs.trans hs') (hc.trans hc') (hn.trans hn') hp haway
  | opened k n hs' hc' hk hroles hn' =>
    exact .opened k n (hs.trans hs') (hc.trans hc') hk hroles (hn.trans hn')
  | closed k n hs' hc' hk hroles hn' =>
    exact .closed k n (hs.trans hs') (hc.trans hc') hk hroles (hn.trans hn')
  | freeing p hs' hc' hp haway => exact .freeing p (hs.trans hs') (hc.trans hc') hp haway

/-! ### What a process knows -/

theorem EntryOk.of_opens {o : Option ν} (h : EntryOk role f out) (hp : Opens (role p) o) :
    f.status = .FD_INIT ∧ f.openCount = 0 ∧ f.node = none ∧ out = some o ∧
      ∀ q, q ≠ p → role q = .away := by
  have hne : role p ≠ .away ∧ role p ≠ .uses ∧ role p ≠ .freeing := by
    cases hr : role p <;> rw [hr] at hp <;> cases hp <;> exact ⟨nofun, nofun, nofun⟩
  cases h with
  | unused hs hc haway => exact absurd (haway p) hne.1
  | opened k n hs hc hk hroles hn => exact absurd (hroles p) (not_or.mpr ⟨hne.1, hne.2.1⟩)
  | closed k n hs hc hk hroles hn => exact absurd (hroles p) (not_or.mpr ⟨hne.1, hne.2.1⟩)
  | freeing q hs hc hq haway =>
    by_cases hpq : p = q
    · exact absurd (hpq ▸ hq) hne.2.2
    · exact absurd (haway p hpq) hne.1
  | @opening o' q hs hc hn hq haway =>
    have hpq : p = q := by
      by_contra hpq
      exact hne.1 (haway p hpq)
    subst hpq
    have ho : o' = o := by
      cases hr : role p <;> rw [hr] at hp hq <;> cases hp <;> cases hq <;> rfl
    exact ⟨hs, hc, hn, by rw [ho], haway⟩

theorem EntryOk.of_none (h : EntryOk role f out) (hs : f.status = .FD_NONE) :
    f.openCount = 0 ∧ out = some none ∧ ∀ p, role p = .away := by
  cases h with
  | unused hs' hc haway => exact ⟨hc, rfl, haway⟩
  | opening p hs' hc hn hp haway => exact nomatch hs.symm.trans hs'
  | opened k n hs' hc hk hroles hn => exact nomatch hs.symm.trans hs'
  | closed k n hs' hc hk hroles hn => exact nomatch hs.symm.trans hs'
  | freeing p hs' hc hp haway => exact nomatch hs.symm.trans hs'

theorem EntryOk.of_opened (h : EntryOk role f out) (hs : f.status = .FD_OPENED) :
    ∃ (k : ℕ) (n : ν), f.openCount = k + 1 ∧ (users role).encard = k ∧
      (∀ p, role p = .away ∨ role p = .uses) ∧ f.node = some n ∧ out = some (some n) := by
  cases h with
  | opened k n hs' hc hk hroles hn => exact ⟨k, n, hc, hk, hroles, hn, rfl⟩
  | unused hs' hc haway => exact nomatch hs.symm.trans hs'
  | opening p hs' hc hn hp haway => exact nomatch hs.symm.trans hs'
  | closed k n hs' hc hk hroles hn => exact nomatch hs.symm.trans hs'
  | freeing p hs' hc hp haway => exact nomatch hs.symm.trans hs'

theorem EntryOk.of_freeing (h : EntryOk role f out) (hp : role p = .freeing) :
    f.status = .FD_CLOSED ∧ f.openCount = 0 ∧ out = some none ∧ ∀ q, q ≠ p → role q = .away := by
  have hne : role p ≠ .away ∧ role p ≠ .uses := by
    rw [hp]
    exact ⟨nofun, nofun⟩
  cases h with
  | unused hs hc haway => exact absurd (haway p) hne.1
  | opened k n hs hc hk hroles hn => exact absurd (hroles p) (not_or.mpr hne)
  | closed k n hs hc hk hroles hn => exact absurd (hroles p) (not_or.mpr hne)
  | opening q hs hc hn hq haway =>
    by_cases hpq : p = q
    · subst hpq
      rw [hp] at hq
      exact nomatch hq
    · exact absurd (haway p hpq) hne.1
  | freeing q hs hc hq haway =>
    have hpq : p = q := by
      by_contra hpq
      exact hne.1 (haway p hpq)
    subst hpq
    exact ⟨hs, hc, rfl, haway⟩

/-- A user of an entry: it is open, or closed by another process. -/
theorem EntryOk.of_uses (h : EntryOk role f out) (hp : role p = .uses) :
    (f.status = .FD_OPENED ∨ f.status = .FD_CLOSED) ∧ 0 < f.openCount ∧
      ∃ n, f.node = some n ∧ out = some (some n) := by
  have hne : role p ≠ .away := by
    rw [hp]
    exact nofun
  cases h with
  | unused hs hc haway => exact absurd (haway p) hne
  | opening q hs hc hn hq haway =>
    by_cases hpq : p = q
    · subst hpq
      rw [hp] at hq
      exact nomatch hq
    · exact absurd (haway p hpq) hne
  | opened k n hs hc hk hroles hn => exact ⟨Or.inl hs, by omega, n, hn, rfl⟩
  | closed k n hs hc hk hroles hn => exact ⟨Or.inr hs, by omega, n, hn, rfl⟩
  | freeing q hs hc hq haway =>
    by_cases hpq : p = q
    · subst hpq
      rw [hp] at hq
      exact nomatch hq
    · exact absurd (haway p hpq) hne

/-! ### Changes that leave every process where it is -/

/-- Nobody uses the entry. -/
theorem users_eq_empty {k : ℕ} (hk : (users role).encard = k) (h0 : k = 0) (q : π) :
    role q ≠ .uses := by
  intro hq
  rw [h0] at hk
  have hempty := Set.encard_eq_zero.mp hk
  have hmem : q ∈ users role := hq
  rw [hempty] at hmem
  exact hmem

/-- `fd_array_dup` to a free entry. -/
theorem EntryOk.dup (h : EntryOk role f out) (hs : f.status = .FD_NONE)
    (hs' : f'.status = .FD_OPENED) (hc' : f'.openCount = f.openCount + 1)
    (hn' : f'.node = some n) : EntryOk role f' (some (some n)) := by
  obtain ⟨hc, -, haway⟩ := h.of_none hs
  apply EntryOk.opened 0 n hs' (by rw [hc', hc]) _ (fun q => Or.inl (haway q)) hn'
  rw [Set.encard_eq_zero.mpr]
  · rfl
  · apply Set.eq_empty_of_forall_notMem
    intro q hq
    exact nomatch (haway q).symm.trans hq

/-- `fd_array_close`, when processes use the entry. -/
theorem EntryOk.close (h : EntryOk role f out) (hs : f.status = .FD_OPENED)
    (hc0 : f.openCount - 1 ≠ 0) :
    EntryOk role { f with status := .FD_CLOSED, openCount := f.openCount - 1 } out := by
  obtain ⟨k, n, hc, hk, hroles, hn, rfl⟩ := h.of_opened hs
  obtain ⟨j, hj⟩ := Nat.exists_eq_succ_of_ne_zero (show k ≠ 0 by omega)
  apply EntryOk.closed j n
  · rfl
  · show f.openCount - 1 = j + 1
    omega
  · rw [hk, hj]
  · exact hroles
  · exact hn

/-! ### Counting the users -/

variable [DecidableEq π]

theorem users_add {k : ℕ} (hp : role p ≠ .uses) (hk : (users role).encard = k) :
    (users (update role p .uses)).encard = (k + 1 : ℕ) := by
  have hset : users (update role p .uses) = insert p (users role) := by
    ext q
    show update role p .uses q = .uses ↔ q = p ∨ role q = .uses
    by_cases hq : q = p
    · rw [hq, update_self]
      exact iff_of_true rfl (Or.inl rfl)
    · rw [update_of_ne hq]
      exact (or_iff_right hq).symm
  rw [hset, Set.encard_insert_of_notMem (show p ∉ users role from hp), hk]
  rfl

theorem users_remove {k : ℕ} (hp : role p = .uses) (hr : r ≠ .uses)
    (hk : (users role).encard = k) :
    0 < k ∧ (users (update role p r)).encard = (k - 1 : ℕ) := by
  have hset : users (update role p r) = users role \ {p} := by
    ext q
    show update role p r q = .uses ↔ role q = .uses ∧ q ≠ p
    by_cases hq : q = p
    · rw [hq, update_self]
      exact iff_of_false hr fun hand => hand.2 rfl
    · rw [update_of_ne hq]
      exact (and_iff_left hq).symm
  have hcard := Set.encard_sdiff_singleton_add_one (s := users role) (a := p) hp
  rw [hk, ← hset] at hcard
  cases k with
  | zero => exact absurd hcard (by simp)
  | succ k => exact ⟨k.succ_pos, WithTop.add_right_cancel ENat.one_ne_top hcard⟩

theorem update_away (haway : ∀ q, q ≠ p → role q = .away) :
    ∀ q, q ≠ p → update role p r q = .away := by
  intro q hq
  rw [update_of_ne hq]
  exact haway q hq

/-! ### Changes by a process -/

/-- `fd_array_alloc` in `file_open`. -/
theorem EntryOk.alloc (h : EntryOk role f out) (hs : f.status = .FD_NONE) :
    EntryOk (update role p .opening) { f with status := .FD_INIT, node := none } (some none) := by
  obtain ⟨hc, -, haway⟩ := h.of_none hs
  apply EntryOk.opening p
  · rfl
  · exact hc
  · rfl
  · rw [update_self]
    exact .opening
  · exact update_away fun q _ => haway q

/-- A process in `file_open` gets a reference or gives it back. -/
theorem EntryOk.opens {o o' : Option ν} (h : EntryOk role f out) (hp : Opens (role p) o)
    (hr : Opens r o') : EntryOk (update role p r) f (some o') := by
  obtain ⟨hs, hc, hn, -, haway⟩ := h.of_opens hp
  apply EntryOk.opening p hs hc hn
  · rw [update_self]
    exact hr
  · exact update_away haway

/-- The end of `file_open`. -/
theorem EntryOk.openEnd {o : Option ν} (h : EntryOk role f out) (hp : Opens (role p) o)
    (hs' : f'.status = .FD_OPENED) (hc' : f'.openCount = f.openCount + 1)
    (hn' : f'.node = some n) : EntryOk (update role p .away) f' (some (some n)) := by
  obtain ⟨-, hc, -, -, haway⟩ := h.of_opens hp
  have hall : ∀ q, update role p .away q = .away := by
    intro q
    by_cases hq : q = p
    · rw [hq, update_self]
    · exact update_away haway q hq
  apply EntryOk.opened 0 n hs' (by rw [hc', hc]) _ (fun q => Or.inl (hall q)) hn'
  rw [Set.encard_eq_zero.mpr]
  · rfl
  · apply Set.eq_empty_of_forall_notMem
    intro q hq
    exact nomatch (hall q).symm.trans hq

/-- `fd_array_free` of an entry that has not been opened. -/
theorem EntryOk.freeInit (h : EntryOk role f out) (hp : Opens (role p) none) :
    EntryOk (update role p .away) { f with status := .FD_NONE } (some none) := by
  obtain ⟨-, hc, -, -, haway⟩ := h.of_opens hp
  apply EntryOk.unused
  · rfl
  · exact hc
  · intro q
    by_cases hq : q = p
    · rw [hq, update_self]
    · exact update_away haway q hq

theorem update_roles (hroles : ∀ q, role q = .away ∨ role q = .uses)
    (hr : r = .away ∨ r = .uses) : ∀ q, update role p r q = .away ∨ update role p r q = .uses := by
  intro q
  by_cases hq : q = p
  · rw [hq, update_self]
    exact hr
  · rw [update_of_ne hq]
    exact hroles q

/-- `fd_array_acquire`. -/
theorem EntryOk.acquire (h : EntryOk role f out) (hs : f.status = .FD_OPENED)
    (hp : role p = .away) :
    EntryOk (update role p .uses) { f with openCount := f.openCount + 1 } out := by
  obtain ⟨k, n, hc, hk, hroles, hn, rfl⟩ := h.of_opened hs
  have hne : role p ≠ .uses := by
    rw [hp]
    exact nofun
  apply EntryOk.opened (k + 1) n
  · exact hs
  · show f.openCount + 1 = k + 1 + 1
    rw [hc]
  · exact users_add hne hk
  · exact update_roles hroles (Or.inr rfl)
  · exact hn

/-- `fd_array_release`, when others use the entry or it is still open. -/
theorem EntryOk.release (h : EntryOk role f out) (hp : role p = .uses)
    (hc0 : f.openCount - 1 ≠ 0) :
    EntryOk (update role p .away) { f with openCount := f.openCount - 1 } out := by
  obtain ⟨hstatus, -, n, hn, rfl⟩ := h.of_uses hp
  cases h with
  | opening q hs hc hn' hq haway => rcases hstatus with hs' | hs' <;> exact nomatch hs.symm.trans hs'
  | opened k m hs hc hk hroles hn' =>
    obtain ⟨hpos, hk'⟩ := users_remove (r := .away) hp nofun hk
    apply EntryOk.opened (k - 1) n
    · exact hs
    · show f.openCount - 1 = k - 1 + 1
      omega
    · exact hk'
    · exact update_roles hroles (Or.inl rfl)
    · exact hn
  | closed k m hs hc hk hroles hn' =>
    obtain ⟨-, hk'⟩ := users_remove (r := .away) hp nofun hk
    have hk0 : k ≠ 0 := by omega
    apply EntryOk.closed (k - 1) n
    · exact hs
    · show f.openCount - 1 = k - 1 + 1
      omega
    · rw [hk', show k + 1 - 1 = k - 1 + 1 by omega]
    · exact update_roles hroles (Or.inl rfl)
    · exact hn

/-- `fd_array_release` by the last user of an entry that others have closed: `fd_array_free`. -/
theorem EntryOk.releaseLast (h : EntryOk role f out) (hp : role p = .uses)
    (hc0 : f.openCount - 1 = 0) :
    f.status = .FD_CLOSED ∧
      EntryOk (update role p .freeing) { f with openCount := f.openCount - 1 } (some none) := by
  obtain ⟨hstatus, -, n, hn, hout⟩ := h.of_uses hp
  cases h with
  | unused hs hc haway => exact nomatch (haway p).symm.trans hp
  | opening q hs hc hn' hq haway => rcases hstatus with hs' | hs' <;> exact nomatch hs.symm.trans hs'
  | freeing q hs hc hq haway => exact nomatch hout
  | opened k m hs hc hk hroles hn' =>
    exact absurd hp (users_eq_empty hk (by omega) p)
  | closed k m hs hc hk hroles hn' =>
    obtain ⟨-, hk'⟩ := users_remove (r := .freeing) hp nofun hk
    refine ⟨hs, ?_⟩
    apply EntryOk.freeing p
    · exact hs
    · exact hc0
    · exact update_self _ _ _
    · intro q hq
      have hnot := users_eq_empty hk' (by omega) q
      rw [update_of_ne hq] at hnot ⊢
      exact (hroles q).resolve_right hnot

/-- `fd_array_close` of an entry that nobody uses: `fd_array_free`. -/
theorem EntryOk.closeLast (h : EntryOk role f out) (hs : f.status = .FD_OPENED)
    (hc0 : f.openCount - 1 = 0) :
    EntryOk (update role p .freeing)
      { f with status := .FD_CLOSED, openCount := f.openCount - 1 } (some none) := by
  obtain ⟨k, n, hc, hk, hroles, hn, rfl⟩ := h.of_opened hs
  apply EntryOk.freeing p
  · rfl
  · exact hc0
  · exact update_self _ _ _
  · intro q hq
    rw [update_of_ne hq]
    exact (hroles q).resolve_right (users_eq_empty hk (by omega) q)

/-- `fd_array_free` after `vfs_close`. -/
theorem EntryOk.freed (h : EntryOk role f out) (hp : role p = .freeing) :
    EntryOk (update role p .away) { f with status := .FD_NONE } (some none) := by
  obtain ⟨-, hc, -, haway⟩ := h.of_freeing hp
  apply EntryOk.unused
  · rfl
  · exact hc
  · intro q
    by_cases hq : q = p
    · rw [hq, update_self]
    · exact update_away haway q hq

end Ucore.Fd
