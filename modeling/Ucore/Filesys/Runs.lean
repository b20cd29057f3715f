import Ucore.Filesys.Calls

/-!
# The references over a run

In any run of calls, on any device and with `kmalloc` failing anywhere, an inode has as many references as
there are descriptors, working directories and entries of the kernel for it, and one more for each
`O_CREAT | O_EXCL` that found it and was refused: **`references_exact`**.  **`all_closed`** is what is left
of this when no process is left.  The run begins where
`vfs_set_bootfs` has made the root directory the working directory of the first process.
-/

namespace Ucore.Filesys

open Sfs Vfs Fallible Function RefCount Relation

variable {τ : Type} [DecidableEq τ] {s₀ s : System τ} {leaks : Node → ℕ} {t₀ : τ}

/-- The state after `vfs_set_bootfs`, which the process with the table `t₀` has called. -/
structure Initial (s : System τ) (t₀ : τ) : Prop where
  table : s.table = update (fun _ => Table.empty) t₀ ⟨some (.sfs SFS_BLKN_ROOT), fun _ => none⟩
  used : 0 < s.filesCount t₀
  bootfs : s.inodes.kernel.bootfs = some (.sfs SFS_BLKN_ROOT)
  inodeList : s.inodes.kernel.mount.inodeList = [SFS_BLKN_ROOT]
  root : kind s.inodes.kernel (.sfs SFS_BLKN_ROOT) = .dir
  links : s.inodes.kernel.mount.nlinks SFS_BLKN_ROOT ≠ 0
  opens : s.inodes.openCount = fun _ => 0
  refs : s.inodes.kernel.refCount = incRef (base s.inodes.kernel) (.sfs SFS_BLKN_ROOT)

/-- The states after any number of calls that return, with the references of refused files. -/
inductive Run (s₀ : System τ) : System τ → (Node → ℕ) → Prop
  | start : Run s₀ s₀ fun _ => 0
  | call {s s' : System τ} {leaks : Node → ℕ} {t : τ} {c : Call τ} {ret : ℤ} (h : Run s₀ s leaks)
      (hc : c.Enabled s t) (hret : c.run s t = .ok (ret, s')) : Run s₀ s' (leaked leaks (c.refused s t))

theorem Initial.cwd (h : Initial s t₀) :
    s.cwd = update (fun _ => none) t₀ (some (.sfs SFS_BLKN_ROOT)) := by
  funext t
  rw [System.cwd, h.table]
  by_cases ht : t = t₀
  · rw [ht, update_self, update_self]
  · rw [update_of_ne ht, update_of_ne ht]
    rfl

theorem Initial.fdArray (h : Initial s t₀) (t : τ) (i : ℕ) : (s.table t).fdArray i = none := by
  rw [h.table]
  by_cases ht : t = t₀
  · rw [ht, update_self]
  · rw [update_of_ne ht]
    rfl

theorem base_sfs (k : Kernel) (ino : ℕ) :
    base k (.sfs ino) = if k.bootfs = some (.sfs ino) then 1 else 0 := Nat.add_zero _

theorem Initial.ok (h : Initial s t₀) : Ok s fun _ => 0 := by
  have hdesc : s.desc = fun _ => none := by
    funext e
    rw [System.desc, h.fdArray]
    rfl
  refine ⟨⟨?_, fun ino => ?_, fun ino hino => ?_⟩, ⟨fun t i f hf => ?_, fun t i f hf => ?_, fun t n hn => ?_,
    h.bootfs, h.root, fun t i _ => h.fdArray t i⟩, ?_, incRef (fun _ => 0) (.sfs SFS_BLKN_ROOT), ?_, fun n => ?_⟩
  · rw [h.inodeList]
    exact List.nodup_singleton _
  · rw [h.inodeList, h.refs, incRef_apply, base_sfs, h.bootfs, List.mem_singleton]
    by_cases hroot : ino = SFS_BLKN_ROOT
    · rw [hroot, if_pos rfl, if_pos rfl]
      exact iff_of_true Nat.two_pos rfl
    · rw [if_neg fun heq => hroot (Node.sfs.inj (Option.some.inj heq)).symm,
        if_neg fun heq => hroot (Node.sfs.inj heq)]
      exact iff_of_false (lt_irrefl 0) hroot
  · rw [h.inodeList, List.mem_singleton] at hino
    rw [hino]
    exact h.links
  · rw [h.fdArray] at hf
    cases hf
  · rw [h.fdArray] at hf
    cases hf
  · have hcwd : s.cwd t = some n := hn
    rw [h.cwd] at hcwd
    by_cases ht : t = t₀
    · rw [ht, update_self] at hcwd
      cases hcwd
      exact h.root
    · rw [update_of_ne ht] at hcwd
      cases hcwd
  · rw [hdesc, h.opens]
    exact Counts.empty
  · rw [h.cwd]
    exact Counts.empty.add rfl
  · show s.inodes.kernel.refCount n = s.inodes.openCount n + incRef (fun _ => 0) (.sfs SFS_BLKN_ROOT) n +
      base s.inodes.kernel n + 0
    rw [h.refs, h.opens, incRef_apply, incRef_apply]
    dsimp only
    omega

theorem Initial.idle (h : Initial s t₀) : Idle s := by
  intro u hu
  rw [h.table, update_of_ne]
  intro heq
  rw [heq] at hu
  exact absurd h.used (by omega)

/-- The invariant holds in every state of a run. -/
theorem Run.ok (h₀ : Initial s₀ t₀) (hrun : Run s₀ s leaks) : Ok s leaks ∧ Idle s := by
  induction hrun with
  | start => exact ⟨h₀.ok, h₀.idle⟩
  | call _ hc hret ih => exact ih.1.run ih.2 hc _ hret

/-- **The references of an inode**, the inodes in memory, and what the tables refer to. -/
theorem references_exact (h₀ : Initial s₀ t₀) (hrun : Run s₀ s leaks) :
    (∀ n, (s.inodes.openCount n : ℕ∞) = {e | s.desc e = some n}.encard) ∧
    (∀ n, (s.inodes.kernel.refCount n : ℕ∞) = {e | s.desc e = some n}.encard +
      {t | s.cwd t = some n}.encard + base s.inodes.kernel n + leaks n) ∧
    (∀ ino, ino ∈ s.inodes.kernel.mount.inodeList ↔ 0 < s.inodes.kernel.refCount (.sfs ino)) ∧
    (∀ t n, s.cwd t = some n → kind s.inodes.kernel n = .dir) ∧
    ∀ t i f, (s.table t).fdArray i = some f → kind s.inodes.kernel f.node = .dir →
      f.readable = true ∧ f.writable = false := by
  obtain ⟨h, -⟩ := hrun.ok h₀
  obtain ⟨cwds, hcwds, hrefs⟩ := h.refs
  have hopens : ∀ n, (s.inodes.openCount n : ℕ∞) = {e | s.desc e = some n}.encard := fun n =>
    (h.opens n).symm
  refine ⟨hopens, fun n => ?_, fun ino => (h.tidy.refs ino).symm, h.placed.pwd, h.placed.modes⟩
  have hcwd : {t | s.cwd t = some n}.encard = (cwds n : ℕ∞) := hcwds n
  rw [hrefs n, ← hopens n, hcwd]
  push_cast
  rfl

/-- The first process on a file system with two directories. -/
def nestedSystem : System ℕ where
  inodes := ⟨{ nestedKernel 1 with refCount := incRef (base (nestedKernel 1)) (.sfs SFS_BLKN_ROOT) },
    fun _ => 0⟩
  table := update (fun _ => Table.empty) 0 ⟨some (.sfs SFS_BLKN_ROOT), fun _ => none⟩
  filesCount t := if t = 0 then 1 else 0

theorem initial_nested : Initial nestedSystem 0 :=
  ⟨rfl, Nat.one_pos, rfl, rfl, by decide +kernel, by decide +kernel, rfl, rfl⟩

/-- It asks for `a`, which is there, as a new file. -/
def openExclusive : Call ℕ := .open plenty plenty plenty [97] (O_CREAT ||| O_EXCL)

/-- The inode of `a` stays in memory, although nothing refers to it. -/
theorem references_exact_refused : ∃ s : System ℕ, s.inodes.kernel.refCount (.sfs 6) = 1 ∧
    (s.inodes.kernel.refCount (.sfs 6) : ℕ∞) = {e | s.desc e = some (.sfs 6)}.encard +
      {t | s.cwd t = some (.sfs 6)}.encard + base s.inodes.kernel (.sfs 6) +
      leaked (fun _ => 0) (some (.sfs 6)) (.sfs 6) := by
  have hrefused : openExclusive.refused nestedSystem 0 = some (.sfs 6) := by decide +kernel
  have hrun : ((openExclusive.run nestedSystem 0).toOption.any fun x =>
      x.2.inodes.kernel.refCount (.sfs 6) = 1) = true := by decide +kernel
  obtain ⟨⟨ret, s⟩, hret, hone⟩ := exists_ok_of_any hrun
  have hreach := Run.call .start (show openExclusive.Enabled nestedSystem 0 from Nat.one_pos) hret
  rw [hrefused] at hreach
  exact ⟨s, of_decide_eq_true hone, (references_exact initial_nested hreach).2.1 (.sfs 6)⟩

/-- **When no process is left**, nothing is open, and in memory are the root directory and the files for
which an open was refused. -/
theorem all_closed (h₀ : Initial s₀ t₀) (hrun : Run s₀ s leaks) (hexit : ∀ t, s.filesCount t = 0) :
    (∀ n, s.inodes.openCount n = 0) ∧
    (∀ n, s.inodes.kernel.refCount n = base s.inodes.kernel n + leaks n) ∧
    ∀ ino, ino ∈ s.inodes.kernel.mount.inodeList ↔ ino = SFS_BLKN_ROOT ∨ 0 < leaks (.sfs ino) := by
  obtain ⟨h, hidle⟩ := hrun.ok h₀
  have hdesc : s.desc = fun _ => none := by
    funext e
    rw [System.desc, hidle e.1 (hexit e.1)]
    rfl
  have hcwd : s.cwd = fun _ => none := by
    funext t
    rw [System.cwd, hidle t (hexit t)]
    rfl
  obtain ⟨cwds, hcwds, hrefs⟩ := h.refs
  have hopens := h.opens
  rw [hdesc] at hopens
  rw [hcwd] at hcwds
  have hopen : ∀ n, s.inodes.openCount n = 0 := congrFun (hopens.unique .empty)
  have href : ∀ n, s.inodes.kernel.refCount n = base s.inodes.kernel n + leaks n := by
    intro n
    rw [hrefs, hopen, hcwds.unique .empty, Nat.zero_add, Nat.zero_add]
  refine ⟨hopen, href, fun ino => ?_⟩
  rw [← h.tidy.refs, href, base_sfs, h.placed.bootfs]
  by_cases hroot : ino = SFS_BLKN_ROOT
  · rw [hroot, if_pos rfl]
    exact iff_of_true (by omega) (.inl rfl)
  · rw [if_neg fun heq => hroot (Node.sfs.inj (Option.some.inj heq)).symm, Nat.zero_add]
    exact ⟨.inr, fun hor => hor.resolve_left hroot⟩

/-- The only process on the same file system. -/
def aloneSystem : System Unit :=
  ⟨nestedSystem.inodes, fun _ => ⟨some (.sfs SFS_BLKN_ROOT), fun _ => none⟩, fun _ => 1⟩

theorem initial_alone : Initial aloneSystem () :=
  ⟨funext fun () => rfl, Nat.one_pos, rfl, rfl, by decide +kernel, by decide +kernel, rfl, rfl⟩

/-- It exits after the refusal. -/
def exclusiveExit : Except Stop (System Unit × System Unit) := do
  let (_, s) ← Call.run aloneSystem () (.open plenty plenty plenty [97] (O_CREAT ||| O_EXCL))
  let (_, s') ← Call.run s () .exit
  .ok (s, s')

/-- The inode of `a` is still there. -/
theorem all_closed_refused : ∃ s : System Unit, s.filesCount () = 0 ∧
    ∀ ino, ino ∈ s.inodes.kernel.mount.inodeList ↔ ino = SFS_BLKN_ROOT ∨ ino = 6 := by
  have hrefused : Call.refused aloneSystem () (.open plenty plenty plenty [97] (O_CREAT ||| O_EXCL)) =
      some (.sfs 6) := by decide +kernel
  have hcheck : (exclusiveExit.toOption.any fun x => x.1.filesCount () = 1 ∧ x.2.filesCount () = 0) = true := by
    decide +kernel
  obtain ⟨⟨s, s'⟩, hx, hcounts⟩ := exists_ok_of_any hcheck
  obtain ⟨hone, hzero⟩ := of_decide_eq_true hcounts
  obtain ⟨⟨_, s₁⟩, hopen, hx⟩ := bind_eq_ok.mp hx
  obtain ⟨⟨_, s₂⟩, hexit, hx⟩ := bind_eq_ok.mp hx
  cases hx
  have hopened := Run.call .start (show Call.Enabled aloneSystem () (.open plenty plenty plenty [97]
    (O_CREAT ||| O_EXCL)) from Nat.one_pos) hopen
  rw [hrefused] at hopened
  have hexited := hopened.call (c := .exit) (t := ()) (Nat.one_pos.trans_eq hone.symm) hexit
  refine ⟨s', hzero, fun ino => ?_⟩
  rw [(all_closed initial_alone hexited fun _ => hzero).2.2 ino]
  show _ ∨ 0 < incRef (fun _ => 0) (.sfs 6) (.sfs ino) ↔ _
  rw [incRef_apply]
  by_cases hsix : ino = 6
  · rw [hsix, if_pos rfl]
    exact iff_of_true (.inr Nat.one_pos) (.inr rfl)
  · rw [if_neg fun heq => hsix (Node.sfs.inj heq)]
    exact or_congr_right (iff_of_false (lt_irrefl 0) hsix)

end Ucore.Filesys
