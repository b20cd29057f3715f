import Ucore.Cache.Model
import Ucore.Lib.Reclaim

/-!
# The invariant of the inode cache

Four parts, each about some fields of the state only: who has the lock (`LockOk`), which inodes the
lists have (`LinksOk`), what the two counters of an inode say (`RefCount.Counted`), and what a
process inside the lock knows (`Busy`).
-/

namespace Ucore.Cache

open Ucore.Sync RefCount

variable {π ν κ : Type*}

/-! ### The lock -/

/-- The process may sleep in `lock_sfs_fs`. -/
def Pc.Waits : Pc ν → Prop
  | .loading _ | .reclaiming _ => True
  | .user | .reading _ | .syncing _ => False

/-- The lock guards the processes in calls, and those in its queue are in `lock_sfs_fs`. -/
structure LockOk (sem : Semaphore π) (pc : π → Pc ν) : Prop where
  guards : sem.Guards {p | pc p ≠ .user}
  waits : ∀ p ∈ sem.waitQueue, (pc p).Waits

variable {sem : Semaphore π} {pc : π → Pc ν} {p q : π} {c : Pc ν}

theorem Pc.Waits.ne_user (h : c.Waits) : c ≠ .user := by
  intro hc
  rw [hc] at h
  exact h

/-- A process calls `lock_sfs_fs`. -/
theorem LockOk.enter [DecidableEq π] (h : LockOk sem pc) (hp : pc p = .user) (hc : c.Waits) :
    LockOk (sem.down p) (Function.update pc p c) := by
  constructor
  · apply h.guards.down (p := p) (fun hne => hne hp)
    intro q
    show Function.update pc p c q ≠ .user ↔ q = p ∨ pc q ≠ .user
    by_cases hq : q = p
    · subst hq
      rw [Function.update_self]
      exact iff_of_true hc.ne_user (Or.inl rfl)
    · rw [Function.update_of_ne hq]
      exact (or_iff_right hq).symm
  · intro q hq
    by_cases hqp : q = p
    · subst hqp
      rw [Function.update_self]
      exact hc
    · rw [Function.update_of_ne hqp]
      exact h.waits q ((Semaphore.mem_down hq).resolve_right hqp)

/-- The owner of the lock goes on inside. -/
theorem LockOk.inside [DecidableEq π] (h : LockOk sem pc) (hp : pc p ≠ .user)
    (hpq : p ∉ sem.waitQueue) (hc : c ≠ .user) : LockOk sem (Function.update pc p c) := by
  constructor
  · apply Handoff.Guards.congr h.guards
    intro q
    show Function.update pc p c q ≠ .user ↔ pc q ≠ .user
    by_cases hq : q = p
    · subst hq
      rw [Function.update_self]
      exact iff_of_true hc hp
    · rw [Function.update_of_ne hq]
  · intro q hq
    have hqp : q ≠ p := fun hqp => hpq (hqp ▸ hq)
    rw [Function.update_of_ne hqp]
    exact h.waits q hq

/-- The owner of the lock calls `unlock_sfs_fs` and is done. -/
theorem LockOk.leave [DecidableEq π] (h : LockOk sem pc) (hp : pc p ≠ .user)
    (hpq : p ∉ sem.waitQueue) :
    LockOk sem.up (Function.update pc p .user) := by
  constructor
  · apply h.guards.up hp hpq
    intro q
    show Function.update pc p .user q ≠ .user ↔ pc q ≠ .user ∧ q ≠ p
    by_cases hq : q = p
    · subst hq
      rw [Function.update_self]
      exact iff_of_false (fun hne => hne rfl) fun hand => hand.2 rfl
    · rw [Function.update_of_ne hq]
      exact (and_iff_left hq).symm
  · intro q hq
    have hqw := Semaphore.mem_up hq
    have hqp : q ≠ p := fun hqp => hpq (hqp ▸ hqw)
    rw [Function.update_of_ne hqp]
    exact h.waits q hqw

/-- A process past `lock_sfs_fs` owns the lock. -/
theorem LockOk.awake (h : LockOk sem pc) (hp : ¬(pc p).Waits) : p ∉ sem.waitQueue :=
  fun hmem => hp (h.waits p hmem)

/-- While `p` owns the lock, no other process is past `lock_sfs_fs`. -/
theorem LockOk.eq_of_inside (h : LockOk sem pc) (hp : pc p ≠ .user) (hpq : p ∉ sem.waitQueue)
    (hq : pc q ≠ .user) (hqw : ¬(pc q).Waits) : q = p :=
  Handoff.Guards.eq h.guards hq (h.awake hqw) hp hpq

/-! ### The lists -/

/-- The lists have the inodes in memory, each once and in the bucket of its number, and no number
belongs to two of them. -/
structure LinksOk (inode : ν → Option Inode) (inodeList : List ν) (hashList : ℕ → List ν) :
    Prop where
  listed : ∀ n, n ∈ inodeList ↔ inode n ≠ none
  nodup : inodeList.Nodup
  hashed : ∀ b n, n ∈ hashList b ↔ ∃ i, inode n = some i ∧ sinHashfn i.ino = b
  hashed_nodup : ∀ b, (hashList b).Nodup
  unique : ∀ n n' i i', inode n = some i → inode n' = some i' → i.ino = i'.ino → n = n'

variable {inode : ν → Option Inode} {inodeList : List ν} {hashList : ℕ → List ν} {n : ν}
  {i i' : Inode}

/-- An inode changes and keeps its number. -/
theorem LinksOk.setInode [DecidableEq ν] (h : LinksOk inode inodeList hashList)
    (hn : inode n = some i) (hino : i'.ino = i.ino) :
    LinksOk (Function.update inode n (some i')) inodeList hashList := by
  -- the inode seen at an address has the number it had
  have hsame : ∀ m j', Function.update inode n (some i') m = some j' →
      ∃ j, inode m = some j ∧ j.ino = j'.ino := by
    intro m j' hm
    by_cases hmn : m = n
    · subst hmn
      rw [Function.update_self] at hm
      cases hm
      exact ⟨i, hn, hino.symm⟩
    · rw [Function.update_of_ne hmn] at hm
      exact ⟨j', hm, rfl⟩
  constructor
  · intro m
    rw [h.listed]
    by_cases hmn : m = n
    · subst hmn
      rw [Function.update_self, hn]
      exact iff_of_true nofun nofun
    · rw [Function.update_of_ne hmn]
  · exact h.nodup
  · intro b m
    rw [h.hashed]
    by_cases hmn : m = n
    · subst hmn
      rw [Function.update_self, hn]
      constructor
      · rintro ⟨j, hj, hb⟩
        cases hj
        exact ⟨i', rfl, hino ▸ hb⟩
      · rintro ⟨j, hj, hb⟩
        cases hj
        exact ⟨i, rfl, hino ▸ hb⟩
    · rw [Function.update_of_ne hmn]
  · exact h.hashed_nodup
  · intro m m' j j' hm hm' hjj
    obtain ⟨k, hk, hkj⟩ := hsame m j hm
    obtain ⟨k', hk', hkj'⟩ := hsame m' j' hm'
    exact h.unique m m' k k' hk hk' (by rw [hkj, hkj', hjj])

/-- `sfs_set_links` of a new inode with a number nobody has. -/
theorem LinksOk.link [DecidableEq ν] (h : LinksOk inode inodeList hashList) (hn : inode n = none)
    (hnew : ∀ m j, inode m = some j → j.ino ≠ i.ino) :
    LinksOk (Function.update inode n (some i)) (n :: inodeList)
      (Function.update hashList (sinHashfn i.ino) (n :: hashList (sinHashfn i.ino))) := by
  have hnot : ∀ b, n ∉ hashList b := by
    intro b hmem
    obtain ⟨j, hj, -⟩ := (h.hashed b n).mp hmem
    rw [hn] at hj
    exact nomatch hj
  have hold : ∀ m j, m ≠ n → (Function.update inode n (some i) m = some j ↔ inode m = some j) := by
    intro m j hmn
    rw [Function.update_of_ne hmn]
  constructor
  · intro m
    rw [List.mem_cons, h.listed]
    by_cases hmn : m = n
    · subst hmn
      rw [Function.update_self]
      exact iff_of_true (Or.inl rfl) nofun
    · rw [Function.update_of_ne hmn]
      exact or_iff_right hmn
  · exact List.nodup_cons.mpr ⟨fun hmem => (h.listed n).mp hmem hn, h.nodup⟩
  · intro b m
    have hmem : m ∈ Function.update hashList (sinHashfn i.ino)
        (n :: hashList (sinHashfn i.ino)) b ↔ m = n ∧ b = sinHashfn i.ino ∨ m ∈ hashList b := by
      by_cases hb : b = sinHashfn i.ino
      · subst hb
        rw [Function.update_self, List.mem_cons, and_iff_left rfl]
      · rw [Function.update_of_ne hb]
        exact (or_iff_right fun hand => hb hand.2).symm
    rw [hmem]
    by_cases hmn : m = n
    · subst hmn
      rw [Function.update_self, or_iff_left (hnot b), and_iff_right rfl]
      constructor
      · intro hb
        exact ⟨i, rfl, hb.symm⟩
      · rintro ⟨j, hj, hb⟩
        cases hj
        exact hb.symm
    · rw [Function.update_of_ne hmn, or_iff_right (fun hand => hmn hand.1)]
      exact h.hashed b m
  · intro b
    by_cases hb : b = sinHashfn i.ino
    · subst hb
      rw [Function.update_self]
      exact List.nodup_cons.mpr ⟨hnot _, h.hashed_nodup _⟩
    · rw [Function.update_of_ne hb]
      exact h.hashed_nodup b
  · intro m m' j j' hm hm' hjj
    by_cases hmn : m = n
    · by_cases hmn' : m' = n
      · rw [hmn, hmn']
      · rw [hmn, Function.update_self] at hm
        cases hm
        exact absurd hjj.symm (hnew m' j' ((hold m' j' hmn').mp hm'))
    · by_cases hmn' : m' = n
      · rw [hmn', Function.update_self] at hm'
        cases hm'
        exact absurd hjj (hnew m j ((hold m j hmn).mp hm))
      · exact h.unique m m' j j' ((hold m j hmn).mp hm) ((hold m' j' hmn').mp hm') hjj

/-- `sfs_remove_links` and the end of the inode. -/
theorem LinksOk.unlink [DecidableEq ν] (h : LinksOk inode inodeList hashList)
    (hn : inode n = some i) :
    LinksOk (Function.update inode n none) (inodeList.erase n)
      (Function.update hashList (sinHashfn i.ino) ((hashList (sinHashfn i.ino)).erase n)) := by
  have hold : ∀ m j, Function.update inode n none m = some j ↔ m ≠ n ∧ inode m = some j := by
    intro m j
    by_cases hmn : m = n
    · subst hmn
      rw [Function.update_self]
      exact iff_of_false nofun fun hand => hand.1 rfl
    · rw [Function.update_of_ne hmn]
      exact (and_iff_right hmn).symm
  constructor
  · intro m
    rw [h.nodup.mem_erase_iff, h.listed]
    by_cases hmn : m = n
    · subst hmn
      rw [Function.update_self]
      exact iff_of_false (fun hand => hand.1 rfl) fun hne => hne rfl
    · rw [Function.update_of_ne hmn]
      exact and_iff_right hmn
  · exact h.nodup.erase n
  · intro b m
    have hmem : m ∈ Function.update hashList (sinHashfn i.ino)
        ((hashList (sinHashfn i.ino)).erase n) b ↔ m ≠ n ∧ m ∈ hashList b := by
      by_cases hb : b = sinHashfn i.ino
      · subst hb
        rw [Function.update_self, (h.hashed_nodup _).mem_erase_iff]
      · rw [Function.update_of_ne hb]
        refine (and_iff_right_of_imp ?_).symm
        intro hm hmn
        subst hmn
        obtain ⟨j, hj, hjb⟩ := (h.hashed b m).mp hm
        rw [hn] at hj
        cases hj
        exact hb hjb.symm
    rw [hmem, h.hashed]
    constructor
    · rintro ⟨hmn, j, hj, hb⟩
      exact ⟨j, (hold m j).mpr ⟨hmn, hj⟩, hb⟩
    · rintro ⟨j, hj, hb⟩
      obtain ⟨hmn, hj⟩ := (hold m j).mp hj
      exact ⟨hmn, j, hj, hb⟩
  · intro b
    by_cases hb : b = sinHashfn i.ino
    · subst hb
      rw [Function.update_self]
      exact (h.hashed_nodup _).erase n
    · rw [Function.update_of_ne hb]
      exact h.hashed_nodup b
  · intro m m' j j' hm hm' hjj
    exact h.unique m m' j j' ((hold m j).mp hm).2 ((hold m' j').mp hm').2 hjj

/-! ### The counters -/

/-- The count of references of the inode at an address, zero where there is none. -/
def refCountOf (inode : ν → Option Inode) (n : ν) : ℕ := (inode n).elim 0 Inode.refCount

/-- `reclaim_count` of the inode at an address, zero where there is none. -/
def reclaimCountOf (inode : ν → Option Inode) (n : ν) : ℕ := (inode n).elim 0 Inode.reclaimCount

/-- The inode for which a process has a `sfs_reclaim` not yet executed. -/
def Pc.pending : Pc ν → Option ν
  | .reclaiming n => some n
  | .user | .loading _ | .reading _ | .syncing _ => none

/-- The calls of `sfs_reclaim` not yet executed. -/
def pendingOf (pc : π → Pc ν) (p : π) : Option ν := (pc p).pending

theorem pendingOf_update [DecidableEq π] : pendingOf (Function.update pc p c)
    = Function.update (pendingOf pc) p c.pending := by
  funext q
  by_cases hq : q = p
  · subst hq
    show (Function.update pc q c q).pending = _
    rw [Function.update_self, Function.update_self]
  · show (Function.update pc p c q).pending = _
    rw [Function.update_of_ne hq, Function.update_of_ne hq]
    rfl

/-- A step between places where no call is pending. -/
theorem pendingOf_update_of_none [DecidableEq π] (hp : (pc p).pending = none)
    (hc : c.pending = none) :
    pendingOf (Function.update pc p c) = pendingOf pc := by
  rw [pendingOf_update, hc, ← hp]
  exact Function.update_eq_self p _

theorem refCountOf_update [DecidableEq ν] {o : Option Inode} :
    refCountOf (Function.update inode n o) = Function.update (refCountOf inode) n (o.elim 0 Inode.refCount) := by
  funext m
  by_cases hm : m = n
  · subst hm
    show (Function.update inode m o m).elim 0 Inode.refCount = _
    rw [Function.update_self, Function.update_self]
  · show (Function.update inode n o m).elim 0 Inode.refCount = _
    rw [Function.update_of_ne hm, Function.update_of_ne hm]
    rfl

theorem reclaimCountOf_update [DecidableEq ν] {o : Option Inode} :
    reclaimCountOf (Function.update inode n o) = Function.update (reclaimCountOf inode) n (o.elim 0 Inode.reclaimCount) := by
  funext m
  by_cases hm : m = n
  · subst hm
    show (Function.update inode m o m).elim 0 Inode.reclaimCount = _
    rw [Function.update_self, Function.update_self]
  · show (Function.update inode n o m).elim 0 Inode.reclaimCount = _
    rw [Function.update_of_ne hm, Function.update_of_ne hm]
    rfl

/-- An inode changes and keeps its count of references. -/
theorem refCountOf_update_of_eq [DecidableEq ν] {o : Option Inode}
    (ho : o.elim 0 Inode.refCount = refCountOf inode n) :
    refCountOf (Function.update inode n o) = refCountOf inode := by
  rw [refCountOf_update, ho]
  exact Function.update_eq_self n _

theorem reclaimCountOf_update_of_eq [DecidableEq ν] {o : Option Inode}
    (ho : o.elim 0 Inode.reclaimCount = reclaimCountOf inode n) :
    reclaimCountOf (Function.update inode n o) = reclaimCountOf inode := by
  rw [reclaimCountOf_update, ho]
  exact Function.update_eq_self n _

theorem refCountOf_some (hn : inode n = some i) : refCountOf inode n = i.refCount := by
  unfold refCountOf
  rw [hn]
  rfl

theorem reclaimCountOf_some (hn : inode n = some i) :
    reclaimCountOf inode n = i.reclaimCount := by
  unfold reclaimCountOf
  rw [hn]
  rfl

/-- An address in use is that of an inode. -/
theorem exists_inode (hn : 0 < reclaimCountOf inode n) : ∃ i, inode n = some i := by
  unfold reclaimCountOf at hn
  cases hi : inode n with
  | none =>
    rw [hi] at hn
    exact absurd hn (lt_irrefl 0)
  | some i => exact ⟨i, rfl⟩

/-! ### Inside the lock -/

/-- What a process inside the lock knows: the number it reads is in no inode, the inode it writes
back is dead. -/
structure Busy (inode : ν → Option Inode) (pc : π → Pc ν) : Prop where
  reading : ∀ p ino, pc p = .reading ino → ∀ n i, inode n = some i → i.ino ≠ ino
  syncing : ∀ p n, pc p = .syncing n →
    ∃ i, inode n = some i ∧ i.refCount = 0 ∧ i.reclaimCount = 0

/-- A process goes to a place outside the lock, or waits for it. -/
theorem Busy.goto [DecidableEq π] (h : Busy inode pc) (hr : ∀ ino, c ≠ .reading ino)
    (hs : ∀ n, c ≠ .syncing n) : Busy inode (Function.update pc p c) := by
  constructor
  · intro q ino hq
    by_cases hqp : q = p
    · rw [hqp, Function.update_self] at hq
      exact absurd hq (hr ino)
    · rw [Function.update_of_ne hqp] at hq
      exact h.reading q ino hq
  · intro q n hq
    by_cases hqp : q = p
    · rw [hqp, Function.update_self] at hq
      exact absurd hq (hs n)
    · rw [Function.update_of_ne hqp] at hq
      exact h.syncing q n hq

/-- An inode with references changes and keeps its number. -/
theorem Busy.setInode [DecidableEq ν] (h : Busy inode pc) (hn : inode n = some i)
    (hpos : 0 < i.refCount) (hino : i'.ino = i.ino) :
    Busy (Function.update inode n (some i')) pc := by
  constructor
  · intro p ino hp m j hj
    by_cases hmn : m = n
    · rw [hmn, Function.update_self] at hj
      cases hj
      rw [hino]
      exact h.reading p ino hp n i hn
    · rw [Function.update_of_ne hmn] at hj
      exact h.reading p ino hp m j hj
  · intro p m hp
    obtain ⟨j, hj, hj0, hj0'⟩ := h.syncing p m hp
    have hmn : m ≠ n := by
      intro hmn
      rw [hmn, hn] at hj
      cases hj
      omega
    rw [Function.update_of_ne hmn]
    exact ⟨j, hj, hj0, hj0'⟩

/-- The invariant. -/
structure CacheOk (s : State π ν κ) : Prop where
  lock : LockOk s.fsSem s.pc
  links : LinksOk s.inode s.inodeList s.hashList
  counts : Counted s.held (pendingOf s.pc) (refCountOf s.inode) (reclaimCountOf s.inode)
  busy : Busy s.inode s.pc

/-- Nobody is past `lock_sfs_fs` once the owner of the lock has left. -/
theorem LockOk.busy_leave [DecidableEq π] (h : LockOk sem pc) (hp : pc p ≠ .user)
    (hpq : p ∉ sem.waitQueue) (inode' : ν → Option Inode) : Busy inode' (Function.update pc p .user) := by
  have houtside : ∀ q, Function.update pc p .user q ≠ .user →
      (Function.update pc p Pc.user q).Waits := by
    intro q hq
    by_cases hqp : q = p
    · subst hqp
      rw [Function.update_self] at hq
      exact absurd rfl hq
    · rw [Function.update_of_ne hqp] at hq ⊢
      by_contra hw
      exact hqp (h.eq_of_inside hp hpq hq hw)
  constructor
  · intro q ino hq
    have hw := houtside q (by rw [hq]; exact nofun)
    rw [hq] at hw
    exact hw.elim
  · intro q m hq
    have hw := houtside q (by rw [hq]; exact nofun)
    rw [hq] at hw
    exact hw.elim

end Ucore.Cache
