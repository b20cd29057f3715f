import Ucore.Cache.Invariant
import Ucore.Lib.Transition

/-!
# Runs of the inode cache

Every step of every process keeps the invariant `CacheOk`, so it holds in each state a run reaches.

* `inode_cache`: an inode number has one inode in memory at most; `reclaim_count` is the number of
  calls of `sfs_reclaim` still to be executed, plus one while there are references; the last of these
  calls frees the inode and no other does; no reference is to a freed inode; the assertions about
  the counters hold.
-/

namespace Ucore.Cache

open Ucore.Sync RefCount Relation

variable {π ν κ : Type*} {s s' : State π ν κ} {p : π} {n : ν} {k : κ} {ino : ℕ} {i i' : Inode}

theorem counts_empty {K F : Type*} : Counts (fun _ : K => (none : Option F)) fun _ => 0 := by
  intro f
  show (keysOf (fun _ : K => (none : Option F)) f).encard = 0
  rw [Set.encard_eq_zero]
  exact Set.eq_empty_of_forall_notMem fun k hk => nomatch hk

theorem cacheOk_mounted : CacheOk (State.mounted : State π ν κ) := by
  constructor
  · exact ⟨Semaphore.guards_init fun q hq => hq rfl, nofun⟩
  · exact ⟨fun m => iff_of_false List.not_mem_nil fun hne => hne rfl, List.nodup_nil,
      fun b m => iff_of_false List.not_mem_nil nofun, fun b => List.nodup_nil, nofun⟩
  · exact ⟨counts_empty, fun _ => 0, counts_empty, fun f => rfl⟩
  · exact ⟨nofun, nofun⟩

/-- A held reference is to an inode with a positive count. -/
theorem CacheOk.held_inode (h : CacheOk s) (hk : s.held k = some n) :
    ∃ i, s.inode n = some i ∧ 0 < i.refCount := by
  have hpos := h.counts.refs.pos hk
  cases hi : s.inode n with
  | none =>
    unfold refCountOf at hpos
    rw [hi] at hpos
    exact absurd hpos (lt_irrefl 0)
  | some i =>
    rw [refCountOf_some hi] at hpos
    exact ⟨i, rfl, hpos⟩

theorem pendingOf_eq_some : pendingOf s.pc p = some n ↔ s.Pending p n := by
  unfold pendingOf State.Pending
  cases s.pc p with
  | reclaiming m =>
    show some m = some n ↔ Pc.reclaiming m = Pc.reclaiming n
    rw [Option.some.injEq, Pc.reclaiming.injEq]
  | user | loading _ | reading _ | syncing _ => exact iff_of_false nofun nofun

/-- A pending `sfs_reclaim` is for an inode with a positive `reclaim_count`. -/
theorem CacheOk.pending_inode (h : CacheOk s) (hp : s.Pending p n) :
    ∃ i, s.inode n = some i ∧ 0 < i.reclaimCount := by
  have hpos := h.counts.pos (pendingOf_eq_some.mpr hp)
  obtain ⟨i, hi⟩ := exists_inode hpos
  rw [reclaimCountOf_some hi] at hpos
  exact ⟨i, hi, hpos⟩

/-- Nothing refers to an address that is not that of an inode. -/
theorem CacheOk.free_address (h : CacheOk s) (hn : s.inode n = none) :
    (∀ k, s.held k ≠ some n) ∧ (∀ p, ¬s.Pending p n) ∧ (∀ p, s.pc p ≠ .syncing n) ∧
      n ∉ s.inodeList ∧ ∀ b, n ∉ s.hashList b := by
  have hrec : reclaimCountOf s.inode n = 0 := by
    unfold reclaimCountOf
    rw [hn]
    rfl
  obtain ⟨-, hheld, hpend⟩ := h.counts.dead hrec
  refine ⟨hheld, fun p hp => hpend p (pendingOf_eq_some.mpr hp), ?_, ?_, ?_⟩
  · intro p hp
    obtain ⟨i, hi, -⟩ := h.busy.syncing p n hp
    rw [hn] at hi
    exact nomatch hi
  · intro hmem
    exact (h.links.listed n).mp hmem hn
  · intro b hmem
    obtain ⟨i, hi, -⟩ := (h.links.hashed b n).mp hmem
    rw [hn] at hi
    exact nomatch hi

/-- What holds of the cache between any two steps. -/
structure Coherent (s : State π ν κ) : Prop where
  /-- An inode number has one inode in memory at most. -/
  unique : ∀ n n' i i', s.inode n = some i → s.inode n' = some i' → i.ino = i'.ino → n = n'
  /-- The list and the hash table have the inodes in memory. -/
  listed : ∀ n, n ∈ s.inodeList ↔ s.inode n ≠ none
  hashed : ∀ b n, n ∈ s.hashList b ↔ ∃ i, s.inode n = some i ∧ sinHashfn i.ino = b
  ref_count : ∀ n i, s.inode n = some i → (i.refCount : ℕ∞) = {k | s.held k = some n}.encard
  reclaim_count : ∀ n i, s.inode n = some i →
    (i.reclaimCount : ℕ∞) = {p | s.Pending p n}.encard + if 0 < i.refCount then 1 else 0
  /-- References and pending calls are to inodes in memory. -/
  held : ∀ k n, s.held k = some n → s.inode n ≠ none
  pending : ∀ p n, s.Pending p n → s.inode n ≠ none

theorem CacheOk.coherent (h : CacheOk s) : Coherent s := by
  constructor
  · exact h.links.unique
  · exact h.links.listed
  · exact h.links.hashed
  · intro n i hi
    have hcount := h.counts.refs n
    rw [refCountOf_some hi] at hcount
    exact hcount.symm
  · intro n i hi
    have hcount := h.counts.encard n
    rw [refCountOf_some hi, reclaimCountOf_some hi] at hcount
    rw [hcount]
    congr 2
    ext p
    exact pendingOf_eq_some
  · intro k n hk hn
    exact (h.free_address hn).1 k hk
  · intro p n hp hn
    exact (h.free_address hn).2.1 p hp

theorem lookupSfsNolock_some (hl : s.lookupSfsNolock ino = some n) :
    ∃ i, s.inode n = some i ∧ i.ino = ino := by
  have hany := List.find?_some hl
  cases hi : s.inode n with
  | none =>
    rw [hi] at hany
    exact nomatch hany
  | some i =>
    rw [hi] at hany
    exact ⟨i, rfl, beq_iff_eq.mp hany⟩

theorem lookupSfsNolock_none (h : CacheOk s) (hl : s.lookupSfsNolock ino = none)
    (hi : s.inode n = some i) : i.ino ≠ ino := by
  intro hino
  have hmem : n ∈ s.hashList (sinHashfn ino) := (h.links.hashed _ n).mpr ⟨i, hi, by rw [hino]⟩
  have hnot := List.find?_eq_none.mp hl n hmem
  rw [hi] at hnot
  exact hnot (beq_iff_eq.mpr hino)

/-! ### Results of a step -/

/-- `p` executes the only `sfs_reclaim` left for an inode without references. -/
structure LastReclaim (p : π) (n : ν) (s : State π ν κ) : Prop where
  executing : s.pc p = .reclaiming n ∨ s.pc p = .syncing n
  last : ∀ q, s.Pending q n → q = p
  unreferenced : ∃ i, s.inode n = some i ∧ i.refCount = 0

/-- A step keeps the invariant and frees inodes in their last `sfs_reclaim` only, or it stops at an
assertion about the disk. -/
def StepOk (p : π) (s : State π ν κ) : Except Assertion (State π ν κ) → Prop
  | .ok s' => CacheOk s' ∧ ∀ m, s.inode m ≠ none → s'.inode m = none → LastReclaim p m s
  | .error e => e = .blockInuse ∨ e = .nlinks

/-- A step that changes at most the contents of inodes frees none. -/
theorem not_freed [DecidableEq ν] {o : Inode} {m : ν} (hm : s.inode m ≠ none)
    (hm' : Function.update s.inode n (some o) m = none) : False := by
  by_cases hmn : m = n
  · rw [hmn, Function.update_self] at hm'
    exact nomatch hm'
  · rw [Function.update_of_ne hmn] at hm'
    exact hm hm'

/-- The owner of the lock leaves without another change. -/
theorem CacheOk.leave [DecidableEq π] (h : CacheOk s) (hpc : s.pc p ≠ .user)
    (hpend : (s.pc p).pending = none) (hawake : s.Awake p) : StepOk p s (.ok (s.unlockSfsFs.goto p .user)) := by
  refine ⟨⟨h.lock.leave hpc hawake, h.links, ?_, h.lock.busy_leave hpc hawake _⟩, ?_⟩
  · show Counted s.held (pendingOf (Function.update s.pc p .user)) _ _
    rw [pendingOf_update_of_none hpend rfl]
    exact h.counts
  · intro m hm hm'
    exact absurd hm' hm

/-- The counters when a reference to `n` is added. -/
theorem CacheOk.acquire [DecidableEq ν] [DecidableEq κ] (h : CacheOk s) (hk : s.held k = none)
    (href : i'.refCount = refCountOf s.inode n + 1)
    (hrec : i'.reclaimCount = if refCountOf s.inode n = 0 then reclaimCountOf s.inode n + 1
      else reclaimCountOf s.inode n) :
    Counted (Function.update s.held k (some n)) (pendingOf s.pc)
      (refCountOf (Function.update s.inode n (some i')))
      (reclaimCountOf (Function.update s.inode n (some i'))) := by
  have hcounts := h.counts.acquire (f := n) hk
  rw [← href, ← hrec] at hcounts
  rw [refCountOf_update, reclaimCountOf_update]
  exact hcounts

/-! ### Loading -/

theorem CacheOk.sfsLoadInode [DecidableEq π] (h : CacheOk s) (hpc : s.pc p = .user) :
    StepOk p s (.ok (s.sfsLoadInode p ino)) := by
  refine ⟨⟨h.lock.enter hpc trivial, h.links, ?_, h.busy.goto nofun nofun⟩, ?_⟩
  · show Counted s.held (pendingOf (Function.update s.pc p (.loading ino))) _ _
    rw [pendingOf_update_of_none (by rw [hpc]; rfl) rfl]
    exact h.counts
  · intro m hm hm'
    exact absurd hm' hm

theorem Inode.found_reclaimCount : (Inode.found i).reclaimCount
    = if i.refCount = 0 then i.reclaimCount + 1 else i.reclaimCount := by
  unfold Inode.found
  by_cases h : i.refCount = 0
  · rw [if_pos h, if_pos (by omega)]
  · rw [if_neg h, if_neg (by omega)]

variable [DecidableEq ν]

theorem CacheOk.sfsLoadInodeLocked [DecidableEq π] [DecidableEq κ] (h : CacheOk s) (hpc : s.pc p = .loading ino)
    (hawake : s.Awake p) (hk : s.held k = none) (ok inuse : Bool) :
    StepOk p s (s.sfsLoadInodeLocked p ino k ok inuse) := by
  have hne : s.pc p ≠ .user := by
    rw [hpc]
    exact nofun
  have hpend : (s.pc p).pending = none := by
    rw [hpc]
    rfl
  unfold State.sfsLoadInodeLocked
  cases hl : s.lookupSfsNolock ino with
  | some n =>
    obtain ⟨i, hi, hino⟩ := lookupSfsNolock_some hl
    dsimp only
    rw [hi]
    refine ⟨⟨h.lock.leave hne hawake, h.links.setInode hi rfl, ?_,
      h.lock.busy_leave hne hawake _⟩, fun m hm hm' => (not_freed hm hm').elim⟩
    show Counted (Function.update s.held k (some n))
      (pendingOf (Function.update s.pc p .user)) _ _
    rw [pendingOf_update_of_none hpend rfl]
    apply h.acquire hk
    · rw [refCountOf_some hi]
      rfl
    · rw [refCountOf_some hi, reclaimCountOf_some hi, Inode.found_reclaimCount]
  | none =>
    cases ok with
    | false => exact h.leave hne hpend hawake
    | true =>
      cases inuse with
      | false => exact Or.inl rfl
      | true =>
        refine ⟨⟨h.lock.inside hne hawake nofun, h.links, ?_, ?_⟩, fun m hm hm' => absurd hm' hm⟩
        · show Counted s.held (pendingOf (Function.update s.pc p (.reading ino))) _ _
          rw [pendingOf_update_of_none hpend rfl]
          exact h.counts
        · constructor
          · intro q ino' hq m j hj
            have hq' : Function.update s.pc p (.reading ino) q = .reading ino' := hq
            by_cases hqp : q = p
            · rw [hqp, Function.update_self] at hq'
              cases hq'
              exact lookupSfsNolock_none h hl hj
            · rw [Function.update_of_ne hqp] at hq'
              exact h.busy.reading q ino' hq' m j hj
          · intro q m hq
            have hq' : Function.update s.pc p (.reading ino) q = .syncing m := hq
            by_cases hqp : q = p
            · rw [hqp, Function.update_self] at hq'
              exact nomatch hq'
            · rw [Function.update_of_ne hqp] at hq'
              exact h.busy.syncing q m hq'

theorem CacheOk.sfsLoadInodeRead [DecidableEq π] [DecidableEq κ] (h : CacheOk s) (hpc : s.pc p = .reading ino)
    (hk : s.held k = none) (ret : ℤ) (nlinks : ℕ) {answer : Option ν}
    (hanswer : ∀ n, answer = some n → s.inode n = none) :
    StepOk p s (s.sfsLoadInodeRead p ino k ret nlinks answer) := by
  have hne : s.pc p ≠ .user := by
    rw [hpc]
    exact nofun
  have hpend : (s.pc p).pending = none := by
    rw [hpc]
    rfl
  have hawake : s.Awake p := h.lock.awake (by rw [hpc]; exact id)
  unfold State.sfsLoadInodeRead
  by_cases hret : ret ≠ 0
  · rw [if_pos hret]
    exact h.leave hne hpend hawake
  rw [if_neg hret]
  by_cases hlinks : 0 < nlinks
  · rw [dif_pos hlinks]
    cases answer with
    | none => exact h.leave hne hpend hawake
    | some n =>
      have hn := hanswer n rfl
      refine ⟨⟨h.lock.leave hne hawake, h.links.link hn (h.busy.reading p ino hpc), ?_,
        h.lock.busy_leave hne hawake _⟩, fun m hm hm' => (not_freed hm hm').elim⟩
      show Counted (Function.update s.held k (some n))
        (pendingOf (Function.update s.pc p .user)) _ _
      rw [pendingOf_update_of_none hpend rfl]
      -- an address not in use has both counters zero
      have href : refCountOf s.inode n = 0 := by
        unfold refCountOf
        rw [hn]
        rfl
      have hrec : reclaimCountOf s.inode n = 0 := by
        unfold reclaimCountOf
        rw [hn]
        rfl
      apply h.acquire hk
      · rw [href]
      · rw [href, hrec]
        rfl
  · rw [dif_neg hlinks]
    exact Or.inr rfl

/-! ### References -/

theorem CacheOk.inodeRefInc [DecidableEq κ] (h : CacheOk s) {k' : κ} (hk : s.held k = some n)
    (hk' : s.held k' = none) : StepOk p s (s.inodeRefInc n k') := by
  obtain ⟨i, hi, hpos⟩ := h.held_inode hk
  unfold State.inodeRefInc
  rw [hi]
  refine ⟨⟨h.lock, h.links.setInode hi rfl, ?_, h.busy.setInode hi hpos rfl⟩,
    fun m hm hm' => (not_freed hm hm').elim⟩
  apply h.acquire hk'
  · rw [refCountOf_some hi]
  · rw [refCountOf_some hi, reclaimCountOf_some hi, if_neg (by omega)]

theorem CacheOk.modify (h : CacheOk s) (hk : s.held k = some n) :
    StepOk p s (s.modify n) := by
  obtain ⟨i, hi, hpos⟩ := h.held_inode hk
  unfold State.modify
  rw [hi]
  refine ⟨⟨h.lock, h.links.setInode hi rfl, ?_, h.busy.setInode hi hpos rfl⟩,
    fun m hm hm' => (not_freed hm hm').elim⟩
  have href := refCountOf_update_of_eq (o := some { i with dirty := true }) (refCountOf_some hi).symm
  have hrec := reclaimCountOf_update_of_eq (o := some { i with dirty := true })
    (reclaimCountOf_some hi).symm
  show Counted s.held (pendingOf s.pc)
    (refCountOf (Function.update s.inode n (some { i with dirty := true })))
    (reclaimCountOf (Function.update s.inode n (some { i with dirty := true })))
  rw [href, hrec]
  exact h.counts

theorem CacheOk.inodeRefDec [DecidableEq π] [DecidableEq κ] (h : CacheOk s) (hpc : s.pc p = .user) (hk : s.held k = some n) :
    StepOk p s (s.inodeRefDec p n k) := by
  obtain ⟨i, hi, hpos⟩ := h.held_inode hk
  unfold State.inodeRefDec
  rw [hi]
  dsimp only
  rw [if_pos hpos]
  generalize hi' : ({ i with refCount := i.refCount - 1 } : Inode) = i'
  have hino : i'.ino = i.ino := by
    rw [← hi']
  have href : refCountOf (Function.update s.inode n (some i'))
      = Function.update (refCountOf s.inode) n (refCountOf s.inode n - 1) := by
    rw [refCountOf_update, refCountOf_some hi, ← hi']
    rfl
  have hrec : reclaimCountOf (Function.update s.inode n (some i')) = reclaimCountOf s.inode := by
    apply reclaimCountOf_update_of_eq
    rw [reclaimCountOf_some hi, ← hi']
    rfl
  by_cases hlast : i.refCount - 1 = 0
  · rw [if_pos hlast]
    refine ⟨⟨h.lock.enter hpc trivial, h.links.setInode hi hino, ?_, ?_⟩,
      fun m hm hm' => (not_freed hm hm').elim⟩
    · show Counted (Function.update s.held k none)
        (pendingOf (Function.update s.pc p (.reclaiming n)))
        (refCountOf (Function.update s.inode n (some i')))
        (reclaimCountOf (Function.update s.inode n (some i')))
      rw [pendingOf_update, href, hrec]
      apply h.counts.release_last hk
      · rw [refCountOf_some hi]
        exact hlast
      · unfold pendingOf
        rw [hpc]
        rfl
    · show Busy _ (Function.update s.pc p (.reclaiming n))
      exact (h.busy.setInode hi hpos hino).goto nofun nofun
  · rw [if_neg hlast]
    refine ⟨⟨h.lock, h.links.setInode hi hino, ?_, h.busy.setInode hi hpos hino⟩,
      fun m hm hm' => (not_freed hm hm').elim⟩
    show Counted (Function.update s.held k none) (pendingOf s.pc)
      (refCountOf (Function.update s.inode n (some i')))
      (reclaimCountOf (Function.update s.inode n (some i')))
    rw [href, hrec]
    apply h.counts.release hk
    rw [refCountOf_some hi]
    exact hlast

/-! ### Reclaiming -/

variable [DecidableEq π]

/-- The end of `sfs_reclaim`, which may follow a wait in `vop_fsync`. -/
theorem CacheOk.sfsReclaimFree (h : CacheOk s) (hpc : s.pc p = .syncing n)
    (hi : s.inode n = some i) (hino : i'.ino = i.ino) (href : i'.refCount = i.refCount) :
    ∃ s', s.sfsReclaimFree p n i' = .ok s' ∧ CacheOk s' ∧
      s'.inode = Function.update s.inode n none := by
  obtain ⟨j, hj, hj0, hj0'⟩ := h.busy.syncing p n hpc
  rw [hi] at hj
  cases hj
  have hne : s.pc p ≠ .user := by
    rw [hpc]
    exact nofun
  have hawake : s.Awake p := h.lock.awake (by rw [hpc]; exact id)
  unfold State.sfsReclaimFree
  rw [if_pos (href.trans hj0)]
  refine ⟨_, rfl, ⟨h.lock.leave hne hawake, ?_, ?_, h.lock.busy_leave hne hawake _⟩, rfl⟩
  · rw [hino]
    exact h.links.unlink hi
  · show Counted s.held (pendingOf (Function.update s.pc p .user))
      (refCountOf (Function.update s.inode n none)) (reclaimCountOf (Function.update s.inode n none))
    rw [pendingOf_update_of_none (by rw [hpc]; rfl) rfl,
      refCountOf_update_of_eq (by rw [refCountOf_some hi, hj0]; rfl),
      reclaimCountOf_update_of_eq (by rw [reclaimCountOf_some hi, hj0']; rfl)]
    exact h.counts

/-- The decrement of `sfs_reclaim`, when it does not end the inode. -/
theorem CacheOk.sfsReclaim_busy (h : CacheOk s) (hpend : s.Pending p n) (hawake : s.Awake p)
    (hi : s.inode n = some i) :
    CacheOk ((s.setInode n (some { i with reclaimCount := i.reclaimCount - 1 })).unlockSfsFs.goto p
      .user) := by
  have hne : s.pc p ≠ .user := by
    rw [show s.pc p = .reclaiming n from hpend]
    exact nofun
  refine ⟨h.lock.leave hne hawake, h.links.setInode hi rfl, ?_, h.lock.busy_leave hne hawake _⟩
  have hcounts := h.counts.execute (pendingOf_eq_some.mpr hpend)
  have href := refCountOf_update_of_eq (o := some { i with reclaimCount := i.reclaimCount - 1 })
    (refCountOf_some hi).symm
  show Counted s.held (pendingOf (Function.update s.pc p .user))
    (refCountOf (Function.update s.inode n (some { i with reclaimCount := i.reclaimCount - 1 })))
    (reclaimCountOf (Function.update s.inode n (some { i with reclaimCount := i.reclaimCount - 1 })))
  rw [pendingOf_update, href, reclaimCountOf_update]
  rw [reclaimCountOf_some hi] at hcounts
  exact hcounts

/-- The decrement of `sfs_reclaim`, when it ends the inode: a process in `vop_fsync`. -/
theorem CacheOk.sfsReclaim_last (h : CacheOk s) (hpend : s.Pending p n) (hawake : s.Awake p)
    (hi : s.inode n = some i) (hrec : i.reclaimCount - 1 = 0) (href0 : i.refCount = 0) :
    CacheOk ((s.setInode n (some { i with reclaimCount := i.reclaimCount - 1 })).goto p
      (.syncing n)) := by
  have hne : s.pc p ≠ .user := by
    rw [show s.pc p = .reclaiming n from hpend]
    exact nofun
  refine ⟨h.lock.inside hne hawake nofun, h.links.setInode hi rfl, ?_, ?_⟩
  · have hcounts := h.counts.execute (pendingOf_eq_some.mpr hpend)
    have href := refCountOf_update_of_eq (o := some { i with reclaimCount := i.reclaimCount - 1 })
      (refCountOf_some hi).symm
    show Counted s.held (pendingOf (Function.update s.pc p (.syncing n)))
      (refCountOf (Function.update s.inode n (some { i with reclaimCount := i.reclaimCount - 1 })))
      (reclaimCountOf
        (Function.update s.inode n (some { i with reclaimCount := i.reclaimCount - 1 })))
    rw [pendingOf_update, href, reclaimCountOf_update]
    rw [reclaimCountOf_some hi] at hcounts
    exact hcounts
  · -- the other processes are outside the lock
    have hbusy := h.lock.busy_leave hne hawake
      (Function.update s.inode n (some { i with reclaimCount := i.reclaimCount - 1 }))
    constructor
    · intro q ino hq
      have hq' : Function.update s.pc p (.syncing n) q = .reading ino := hq
      by_cases hqp : q = p
      · rw [hqp, Function.update_self] at hq'
        exact nomatch hq'
      · rw [Function.update_of_ne hqp] at hq'
        exact hbusy.reading q ino (by rw [Function.update_of_ne hqp]; exact hq')
    · intro q m hq
      have hq' : Function.update s.pc p (.syncing n) q = .syncing m := hq
      by_cases hqp : q = p
      · rw [hqp, Function.update_self] at hq'
        cases hq'
        exact ⟨_, Function.update_self _ _ _, href0, hrec⟩
      · rw [Function.update_of_ne hqp] at hq'
        exact hbusy.syncing q m (by rw [Function.update_of_ne hqp]; exact hq')

/-- `sfs_reclaim` with the lock.  It comes to the end of the inode exactly if it is the last call
pending and there are no references. -/
theorem CacheOk.sfsReclaimLocked (h : CacheOk s) (hpend : s.Pending p n) (hawake : s.Awake p) :
    ∃ s', s.sfsReclaimLocked p n = .ok s' ∧ CacheOk s' ∧
      (∀ m, m ≠ n → s'.inode m = s.inode m) ∧
      (s'.inode n = none ∨ s'.pc p = .syncing n ↔
        (∀ q, s.Pending q n → q = p) ∧ ∀ i, s.inode n = some i → i.refCount = 0) := by
  obtain ⟨i, hi, hpos⟩ := h.pending_inode hpend
  have hpend' := pendingOf_eq_some.mpr hpend
  unfold State.sfsReclaimLocked
  rw [hi]
  dsimp only
  rw [if_pos hpos]
  by_cases hbusy : i.reclaimCount - 1 ≠ 0 ∨ i.refCount ≠ 0
  · rw [if_pos hbusy]
    refine ⟨_, rfl, h.sfsReclaim_busy hpend hawake hi, fun m hm => Function.update_of_ne hm _ _, ?_⟩
    apply iff_of_false
    · rintro (hnone | hpc)
      · have hsome : Function.update s.inode n (some _) n = none := hnone
        rw [Function.update_self] at hsome
        exact nomatch hsome
      · have huser : Function.update s.pc p .user p = .syncing n := hpc
        rw [Function.update_self] at huser
        exact nomatch huser
    · rintro ⟨hlast, href⟩
      have hone := h.counts.eq_one hpend' (fun q hq => hlast q (pendingOf_eq_some.mp hq))
        ((refCountOf_some hi).trans (href i rfl))
      rw [reclaimCountOf_some hi] at hone
      rcases hbusy with hbusy | hbusy
      · omega
      · exact hbusy (href i rfl)
  · rw [if_neg hbusy]
    have hrec0 : i.reclaimCount - 1 = 0 := by omega
    have href0 : i.refCount = 0 := by omega
    have hsync := h.sfsReclaim_last hpend hawake hi hrec0 href0
    have hlast : (∀ q, s.Pending q n → q = p) ∧ ∀ j, some i = some j → j.refCount = 0 := by
      constructor
      · intro q hq
        have hmem : q ∈ keysOf (pendingOf s.pc) n := pendingOf_eq_some.mpr hq
        rw [h.counts.last hpend' (by rw [reclaimCountOf_some hi]; exact hrec0)] at hmem
        exact hmem
      · intro j hj
        cases hj
        exact href0
    by_cases hdirty : i.dirty = true
    · rw [if_pos hdirty]
      refine ⟨_, rfl, hsync, fun m hm => Function.update_of_ne hm _ _, iff_of_true ?_ hlast⟩
      exact Or.inr (Function.update_self _ _ _)
    · rw [if_neg hdirty]
      -- a process with nothing to write goes through `vop_fsync` without a stop
      obtain ⟨s', hs', hok, hinode⟩ := hsync.sfsReclaimFree (Function.update_self _ _ _)
        (Function.update_self _ _ _) rfl rfl
      refine ⟨s', ?_, hok, ?_, iff_of_true (Or.inl ?_) hlast⟩
      · rw [← hs']
        unfold State.sfsReclaimFree
        rw [if_pos href0, if_pos href0]
        show Except.ok _ = Except.ok _
        unfold State.goto
        congr 2
        exact (Function.update_idem _ _ _).symm
      · intro m hm
        rw [hinode, Function.update_of_ne hm]
        exact Function.update_of_ne hm _ _
      · rw [hinode, Function.update_self]

theorem CacheOk.sfsReclaimSynced (h : CacheOk s) (hpc : s.pc p = .syncing n) (ret : ℤ) :
    ∃ s', s.sfsReclaimSynced p n ret = .ok s' ∧ CacheOk s' ∧
      s'.inode = if ret = 0 then Function.update s.inode n none else s.inode := by
  obtain ⟨i, hi, -⟩ := h.busy.syncing p n hpc
  unfold State.sfsReclaimSynced
  rw [hi]
  dsimp only
  by_cases hret : ret = 0
  · rw [if_neg (not_not.mpr hret), if_pos hret]
    exact h.sfsReclaimFree hpc hi rfl rfl
  · have hne : s.pc p ≠ .user := by
      rw [hpc]
      exact nofun
    rw [if_pos hret, if_neg hret]
    refine ⟨_, rfl, (h.leave hne ?_ (h.lock.awake ?_)).1, rfl⟩
    · rw [hpc]
      rfl
    · rw [hpc]
      exact id

/-! ### Steps and runs -/

variable [DecidableEq κ]

/-- Every step keeps the invariant. -/
theorem CacheOk.step (h : CacheOk s) {r : Except Assertion (State π ν κ)} (hstep : Step p s r) :
    StepOk p s r := by
  cases hstep with
  | load ino hpc => exact h.sfsLoadInode hpc
  | loadLocked ino k ok inuse hpc hawake hk => exact h.sfsLoadInodeLocked hpc hawake hk ok inuse
  | loadRead ino k ret nlinks answer hpc hk hanswer =>
    exact h.sfsLoadInodeRead hpc hk ret nlinks hanswer
  | refInc n k k' hpc hk hk' => exact h.inodeRefInc hk hk'
  | modify n k hpc hk => exact h.modify hk
  | refDec n k hpc hk => exact h.inodeRefDec hpc hk
  | reclaimLocked n hpc hawake =>
    obtain ⟨s', hs', hok, hframe, hend⟩ := h.sfsReclaimLocked hpc hawake
    rw [hs']
    refine ⟨hok, fun m hm hm' => ?_⟩
    have hmn : m = n := by
      by_contra hmn
      rw [hframe m hmn] at hm'
      exact hm hm'
    subst hmn
    obtain ⟨hlast, href⟩ := hend.mp (Or.inl hm')
    obtain ⟨i, hi, -⟩ := h.pending_inode hpc
    exact ⟨Or.inl hpc, hlast, i, hi, href i hi⟩
  | reclaimSynced n ret hpc =>
    obtain ⟨s', hs', hok, hinode⟩ := h.sfsReclaimSynced hpc ret
    rw [hs']
    refine ⟨hok, fun m hm hm' => ?_⟩
    have hmn : m = n := by
      by_contra hmn
      rw [hinode] at hm'
      split at hm'
      · rw [Function.update_of_ne hmn] at hm'
        exact hm hm'
      · exact hm hm'
    subst hmn
    obtain ⟨i, hi, href, hrec⟩ := h.busy.syncing p m hpc
    have hdead := (h.counts.dead (f := m) (by rw [reclaimCountOf_some hi]; exact hrec)).2.2
    exact ⟨Or.inr hpc, fun q hq => absurd (pendingOf_eq_some.mpr hq) (hdead q), i, hi, href⟩

theorem cacheOk_run (hrun : ReflTransGen Next State.mounted s) : CacheOk s := by
  apply Transition.invariant _ hrun cacheOk_mounted
  rintro a b ha ⟨p, hstep⟩
  exact (ha.step hstep).1

/-- **The inode cache.**  For any processes and any interleaving: the cache is coherent; an inode is
unlinked and freed only by a process that executes the last pending `sfs_reclaim` for it while there
are no references, and nothing refers to it from then on; the last pending call does come to the end
of an unreferenced inode, through `vop_fsync` if the inode is dirty; and the assertions about
`ref_count` and `reclaim_count` hold. -/
theorem inode_cache (hrun : ReflTransGen Next State.mounted s) :
    Coherent s ∧
    (∀ p s', Step p s (.ok s') → ∀ n, s.inode n ≠ none → s'.inode n = none →
      LastReclaim p n s ∧ (∀ k, s'.held k ≠ some n) ∧ (∀ q, ¬s'.Pending q n) ∧
        (∀ q, s'.pc q ≠ .syncing n) ∧ n ∉ s'.inodeList ∧ ∀ b, n ∉ s'.hashList b) ∧
    (∀ p n, s.Pending p n → s.Awake p → ∃ s', s.sfsReclaimLocked p n = .ok s' ∧
      (s'.inode n = none ∨ s'.pc p = .syncing n ↔
        (∀ q, s.Pending q n → q = p) ∧ ∀ i, s.inode n = some i → i.refCount = 0)) ∧
    (∀ p n, s.pc p = .syncing n → ∃ s', s.sfsReclaimSynced p n 0 = .ok s' ∧ s'.inode n = none) ∧
    ∀ p e, Step p s (.error e) → e = .blockInuse ∨ e = .nlinks := by
  have h := cacheOk_run hrun
  refine ⟨h.coherent, ?_, ?_, ?_, fun p e hstep => h.step hstep⟩
  · intro p s' hstep n hn hn'
    obtain ⟨hok, hfreed⟩ := h.step hstep
    exact ⟨hfreed n hn hn', hok.free_address hn'⟩
  · intro p n hpend hawake
    obtain ⟨s', hs', -, -, hend⟩ := h.sfsReclaimLocked hpend hawake
    exact ⟨s', hs', hend⟩
  · intro p n hpc
    obtain ⟨s', hs', -, hinode⟩ := h.sfsReclaimSynced hpc 0
    refine ⟨s', hs', ?_⟩
    rw [hinode, if_pos rfl, Function.update_self]

/-- A process loads the inode of block 7 and drops it again; its `sfs_reclaim` waits for the lock. -/
theorem inode_cache_dropped : ∃ s : State Bool ℕ ℕ, s.Pending true 3 ∧ Coherent s := by
  have hrun : ReflTransGen Next (State.mounted : State Bool ℕ ℕ) _ :=
    (((ReflTransGen.single ⟨true, .load 7 rfl⟩).tail
      ⟨true, .loadLocked 7 0 true true rfl List.not_mem_nil rfl⟩).tail
      ⟨true, .loadRead 7 0 0 1 (some 3) rfl rfl fun _ _ => rfl⟩).tail
      ⟨true, .refDec 3 0 rfl rfl⟩
  refine ⟨_, ?_, (inode_cache hrun).1⟩
  rfl

end Ucore.Cache
