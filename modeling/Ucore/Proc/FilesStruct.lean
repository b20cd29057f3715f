import Mathlib.Algebra.BigOperators.Group.Finset.Basic
import Mathlib.Algebra.BigOperators.Group.List.Basic
import Mathlib.Algebra.Order.BigOperators.Group.Finset
import Mathlib.Algebra.Ring.Int.Defs
import Ucore.Lib.Fallible

/-!
# `files_struct` (`lab8/kern/fs/fs.c`)

A `files_struct` has the current directory and the open descriptors of the processes that use it.
Between the calls an open descriptor has `open_count` 1; `node` has the inodes of the open ones.

`held` counts the references that a `files_struct` has to an inode.  The functions of this module take
and give back references as the tables hold more or fewer of them: `balance` does not change.
-/

namespace Ucore.Proc

open Function Fallible

/-- Where the kernel stops: the panics and the assertions, and loops that would not end. -/
inductive Panic
  | idleExit
  | initExit
  | waitKernelProc
  | wakeupProc
  | enqueue
  | dequeue
  | addTimer
  | runTimerList
  | copyFiles
  | dupFiles
  | filesDestroy
  | filesCloseall
  | nullPointer
  | endless
  deriving DecidableEq, Repr

/-- `sizeof(struct files_struct)`: two pointers, an `int` and a semaphore. -/
def sizeofFilesStruct : ℕ := 48

/-- `sizeof(struct file)`.  `bool` is a `long long`. -/
def sizeofFile : ℕ := 56

/-- `FILES_STRUCT_BUFSIZE / sizeof(struct file)`; the buffer is what is left of a page. -/
def FILES_STRUCT_NENTRY : ℕ := (4096 - sizeofFilesStruct) / sizeofFile

/-- `struct files_struct`. -/
structure FilesStruct where
  pwd : Option ℕ
  filesCount : ℤ
  node : ℕ → Option ℕ

/-- The allocated `files_struct`s, and the counts of the inodes. -/
structure Tables where
  allocated : List ℕ
  files : ℕ → FilesStruct
  refCount : ℕ → ℤ
  openCount : ℕ → ℤ

namespace Tables

def vopRefInc (n : ℕ) (fs : Tables) : Tables :=
  { fs with refCount := update fs.refCount n (fs.refCount n + 1) }

def vopRefDec (n : ℕ) (fs : Tables) : Tables :=
  { fs with refCount := update fs.refCount n (fs.refCount n - 1) }

def vopOpenInc (n : ℕ) (fs : Tables) : Tables :=
  { fs with openCount := update fs.openCount n (fs.openCount n + 1) }

def vopOpenDec (n : ℕ) (fs : Tables) : Tables :=
  { fs with openCount := update fs.openCount n (fs.openCount n - 1) }

def setFiles (t : ℕ) (F : FilesStruct) (fs : Tables) : Tables :=
  { fs with files := update fs.files t F }

/-- The descriptor `i` of `t` is open for the inode, or closed. -/
def setNode (t i : ℕ) (v : Option ℕ) (fs : Tables) : Tables :=
  fs.setFiles t { fs.files t with node := update (fs.files t).node i v }

/-- `files_create`, which gets the address `t`. -/
def filesCreate (t : ℕ) (fs : Tables) : Tables :=
  { fs.setFiles t ⟨none, 0, fun _ => none⟩ with allocated := t :: fs.allocated }

def filesCountInc (t : ℕ) (fs : Tables) : Tables :=
  fs.setFiles t { fs.files t with filesCount := (fs.files t).filesCount + 1 }

def filesCountDec (t : ℕ) (fs : Tables) : Tables :=
  fs.setFiles t { fs.files t with filesCount := (fs.files t).filesCount - 1 }

/-- `fd_array_close` of the descriptor `i`, if it is open. -/
def fdArrayClose (t i : ℕ) (fs : Tables) : Tables :=
  match (fs.files t).node i with
  | none => fs
  | some n => ((fs.setNode t i none).vopOpenDec n).vopRefDec n

/-- `fd_array_open` of the descriptor `i`, for an inode that `vfs_open` returns or another descriptor
has. -/
def fdArrayOpen (t i n : ℕ) (fs : Tables) : Tables :=
  ((fs.vopRefInc n).vopOpenInc n).setNode t i (some n)

/-- `fd_array_dup` of the descriptor `i` of `src`, if it is open. -/
def fdArrayDup (dst src i : ℕ) (fs : Tables) : Tables :=
  match (fs.files src).node i with
  | none => fs
  | some n => fs.fdArrayOpen dst i n

/-- `files_destroy`. -/
def filesDestroy (t : ℕ) (fs : Tables) : Except Panic Tables := do
  require ((fs.files t).filesCount = 0) Panic.filesDestroy
  let fs := match (fs.files t).pwd with
    | none => fs
    | some n => fs.vopRefDec n
  let fs := (List.range FILES_STRUCT_NENTRY).foldl (fun fs i => fs.fdArrayClose t i) fs
  .ok { fs with allocated := fs.allocated.erase t }

/-- `files_closeall`: it skips stdin and stdout. -/
def filesCloseall (t : ℕ) (fs : Tables) : Except Panic Tables := do
  require (0 < (fs.files t).filesCount) Panic.filesCloseall
  .ok ((List.range' 2 (FILES_STRUCT_NENTRY - 2)).foldl (fun fs i => fs.fdArrayClose t i) fs)

/-- `dup_files`. -/
def dupFiles (dst src : ℕ) (fs : Tables) : Except Panic Tables := do
  require ((fs.files dst).filesCount = 0 ∧ 0 < (fs.files src).filesCount) Panic.dupFiles
  let fs := fs.setFiles dst { fs.files dst with pwd := (fs.files src).pwd }
  let fs := match (fs.files src).pwd with
    | none => fs
    | some n => fs.vopRefInc n
  .ok ((List.range FILES_STRUCT_NENTRY).foldl (fun fs i => fs.fdArrayDup dst src i) fs)

/-- `put_files` of a process that uses `t`. -/
def putFiles (t : ℕ) (fs : Tables) : Except Panic Tables :=
  let fs := fs.filesCountDec t
  if (fs.files t).filesCount = 0 then fs.filesDestroy t else .ok fs

/-- `vfs_set_curdir` with a directory. -/
def setCurdir (t n : ℕ) (fs : Tables) : Tables :=
  if (fs.files t).pwd = some n then fs
  else
    let fs' := (fs.vopRefInc n).setFiles t { fs.files t with pwd := some n }
    match (fs.files t).pwd with
    | none => fs'
    | some n' => fs'.vopRefDec n'

end Tables

/-! ### The balance of references -/

/-- 1 for the node `n`. -/
def one (v : Option ℕ) (n : ℕ) : ℤ := if v = some n then 1 else 0

@[simp] theorem one_none (n : ℕ) : one none n = 0 := rfl

/-- The descriptors that are open for the inode `n`. -/
def FilesStruct.opens (F : FilesStruct) (n : ℕ) : ℤ :=
  ∑ i ∈ Finset.range FILES_STRUCT_NENTRY, one (F.node i) n

/-- The references that a `files_struct` holds. -/
def FilesStruct.held (F : FilesStruct) (n : ℕ) : ℤ := one F.pwd n + F.opens n

theorem FilesStruct.opens_update (F : FilesStruct) {i : ℕ} (hi : i < FILES_STRUCT_NENTRY)
    (v : Option ℕ) (n : ℕ) : FilesStruct.opens { F with node := update F.node i v } n =
      F.opens n - one (F.node i) n + one v n := by
  have hmem := Finset.mem_range.mpr hi
  have hrest : ∑ j ∈ (Finset.range FILES_STRUCT_NENTRY).erase i, one (update F.node i v j) n =
      ∑ j ∈ (Finset.range FILES_STRUCT_NENTRY).erase i, one (F.node j) n := by
    apply Finset.sum_congr rfl
    intro j hj
    rw [update_of_ne (Finset.ne_of_mem_erase hj)]
  have hnew := Finset.add_sum_erase _ (fun j => one (update F.node i v j) n) hmem
  have hold := Finset.add_sum_erase _ (fun j => one (F.node j) n) hmem
  rw [update_self, hrest] at hnew
  rw [FilesStruct.opens, FilesStruct.opens, ← hnew, ← hold]
  omega

/-- A sum over a list in which one value changes. -/
theorem sum_map_update {l : List ℕ} (hnodup : l.Nodup) {t : ℕ} (ht : t ∈ l)
    (files : ℕ → FilesStruct) (F : FilesStruct) (g : FilesStruct → ℤ) :
    (l.map fun t' => g (update files t F t')).sum =
      (l.map fun t' => g (files t')).sum + (g F - g (files t)) := by
  have hrest : ((l.erase t).map fun t' => g (update files t F t')) =
      (l.erase t).map fun t' => g (files t') := by
    apply List.map_congr_left
    intro t' ht'
    have hne : t' ≠ t := fun heq => (List.Nodup.mem_erase_iff hnodup).mp ht' |>.1 heq
    rw [update_of_ne hne]
  have hperm := List.perm_cons_erase ht
  rw [(hperm.map _).sum_eq, (hperm.map fun t' => g (files t')).sum_eq, List.map_cons, List.map_cons,
    List.sum_cons, List.sum_cons, update_self, hrest]
  omega

namespace Tables

variable {fs fs' : Tables} {t t' i n m : ℕ} {F : FilesStruct} {v : Option ℕ}

/-- The counts of an inode, less what the tables hold. -/
def balance (fs : Tables) (n : ℕ) : ℤ × ℤ :=
  (fs.refCount n - (fs.allocated.map fun t => (fs.files t).held n).sum,
    fs.openCount n - (fs.allocated.map fun t => (fs.files t).opens n).sum)

theorem update_count {count : ℕ → ℤ} {x k : ℤ} (hx : x = count m + k) (n : ℕ) :
    update count m x n = count n + k * one (some m) n := by
  by_cases h : n = m
  · subst h
    simp [one, hx]
  · rw [update_of_ne h, one, if_neg fun heq => h (Option.some.inj heq).symm]
    omega

/-- The counts change alone. -/
theorem balance_counts {k l : ℤ} (hr : fs'.refCount n = fs.refCount n + k)
    (ho : fs'.openCount n = fs.openCount n + l) (hallocated : fs'.allocated = fs.allocated)
    (hfiles : fs'.files = fs.files) : fs'.balance n = fs.balance n + (k, l) := by
  rw [balance, hr, ho, hallocated, hfiles]
  ext
  · exact add_sub_right_comm _ _ _
  · exact add_sub_right_comm _ _ _

theorem balance_vopRefInc (fs : Tables) :
    (fs.vopRefInc m).balance n = fs.balance n + (1 * one (some m) n, 0) :=
  balance_counts (update_count rfl n) (add_zero _).symm rfl rfl

theorem balance_vopRefDec (fs : Tables) :
    (fs.vopRefDec m).balance n = fs.balance n + (-1 * one (some m) n, 0) :=
  balance_counts (update_count rfl n) (add_zero _).symm rfl rfl

theorem balance_vopOpenInc (fs : Tables) :
    (fs.vopOpenInc m).balance n = fs.balance n + (0, 1 * one (some m) n) :=
  balance_counts (add_zero _).symm (update_count rfl n) rfl rfl

theorem balance_vopOpenDec (fs : Tables) :
    (fs.vopOpenDec m).balance n = fs.balance n + (0, -1 * one (some m) n) :=
  balance_counts (add_zero _).symm (update_count rfl n) rfl rfl

/-- A table holds other references. -/
theorem balance_setFiles (hnodup : fs.allocated.Nodup) (ht : t ∈ fs.allocated) (F : FilesStruct) :
    (fs.setFiles t F).balance n = fs.balance n -
      (F.held n - (fs.files t).held n, F.opens n - (fs.files t).opens n) := by
  ext
  · show fs.refCount n - (fs.allocated.map fun t' => (update fs.files t F t').held n).sum = _
    rw [sum_map_update hnodup ht fs.files F fun F => F.held n]
    show _ = fs.refCount n - _ - _
    omega
  · show fs.openCount n - (fs.allocated.map fun t' => (update fs.files t F t').opens n).sum = _
    rw [sum_map_update hnodup ht fs.files F fun F => F.opens n]
    show _ = fs.openCount n - _ - _
    omega

theorem balance_setNode (hnodup : fs.allocated.Nodup) (ht : t ∈ fs.allocated)
    (hi : i < FILES_STRUCT_NENTRY) (v : Option ℕ) : (fs.setNode t i v).balance n =
      fs.balance n + (one ((fs.files t).node i) n - one v n, one ((fs.files t).node i) n - one v n) := by
  rw [setNode, balance_setFiles hnodup ht, FilesStruct.held, FilesStruct.held,
    FilesStruct.opens_update _ hi]
  ext
  · show _ - (one (fs.files t).pwd n + _ - _) = _ + (_ - _)
    omega
  · show _ - _ = _ + (_ - _)
    omega

/-! ### Descriptors are opened and closed -/

/-- Only the descriptors of `t` change, and the counts with them. -/
structure Moves (t : ℕ) (fs fs' : Tables) : Prop where
  allocated : fs'.allocated = fs.allocated
  others : ∀ t', t' ≠ t → fs'.files t' = fs.files t'
  pwd : (fs'.files t).pwd = (fs.files t).pwd
  filesCount : (fs'.files t).filesCount = (fs.files t).filesCount
  balance : ∀ n, fs'.balance n = fs.balance n

theorem Moves.refl (t : ℕ) (fs : Tables) : Moves t fs fs :=
  ⟨rfl, fun _ _ => rfl, rfl, rfl, fun _ => rfl⟩

theorem Moves.trans {fs'' : Tables} (h : Moves t fs fs') (h' : Moves t fs' fs'') : Moves t fs fs'' :=
  ⟨h'.allocated.trans h.allocated, fun t' ht' => (h'.others t' ht').trans (h.others t' ht'),
    h'.pwd.trans h.pwd, h'.filesCount.trans h.filesCount,
    fun n => (h'.balance n).trans (h.balance n)⟩

theorem fdArrayClose_node : ((fs.fdArrayClose t i).files t).node = update (fs.files t).node i none := by
  rw [fdArrayClose]
  split
  case h_1 hnone =>
    funext j
    by_cases hj : j = i
    · rw [hj, update_self, hnone]
    · rw [update_of_ne hj]
  case h_2 =>
    show (update fs.files t _ t).node = _
    rw [update_self]

theorem fdArrayClose_moves (hnodup : fs.allocated.Nodup) (ht : t ∈ fs.allocated)
    (hi : i < FILES_STRUCT_NENTRY) : Moves t fs (fs.fdArrayClose t i) := by
  rw [fdArrayClose]
  split
  case h_1 => exact Moves.refl t fs
  case h_2 m hm =>
    refine ⟨rfl, fun t' ht' => update_of_ne ht' _ _, ?_, ?_, ?_⟩
    · show (update fs.files t _ t).pwd = _
      rw [update_self]
    · show (update fs.files t _ t).filesCount = _
      rw [update_self]
    · intro n
      rw [balance_vopRefDec, balance_vopOpenDec, balance_setNode hnodup ht hi, hm, one_none]
      ext
      · show _ + (_ - (0 : ℤ)) + (0 : ℤ) + _ = _
        omega
      · show _ + (_ - (0 : ℤ)) + _ + (0 : ℤ) = _
        omega

/-- A descriptor is opened. -/
theorem fdArrayOpen_moves (hnodup : fs.allocated.Nodup) (ht : t ∈ fs.allocated)
    (hi : i < FILES_STRUCT_NENTRY) (hnone : (fs.files t).node i = none) :
    Moves t fs (fs.fdArrayOpen t i m) := by
  refine ⟨rfl, fun t' ht' => update_of_ne ht' _ _, ?_, ?_, ?_⟩
  · show (update fs.files t _ t).pwd = _
    rw [update_self]
    rfl
  · show (update fs.files t _ t).filesCount = _
    rw [update_self]
    rfl
  · intro n
    have hset := balance_setNode (n := n)
      (show ((fs.vopRefInc m).vopOpenInc m).allocated.Nodup from hnodup) ht hi (some m)
    rw [fdArrayOpen, hset, balance_vopOpenInc, balance_vopRefInc]
    have hnode : (((fs.vopRefInc m).vopOpenInc m).files t).node i = none := hnone
    rw [hnode, one_none]
    ext
    · show _ + _ + (0 : ℤ) + ((0 : ℤ) - _) = _
      omega
    · show _ + (0 : ℤ) + _ + ((0 : ℤ) - _) = _
      omega

/-- A closed descriptor stays closed. -/
theorem closeall_none (is : List ℕ) {j : ℕ} (hj : (fs.files t).node j = none) :
    ((is.foldl (fun fs i => fs.fdArrayClose t i) fs).files t).node j = none := by
  induction is generalizing fs with
  | nil => exact hj
  | cons i is ih =>
    apply ih
    rw [fdArrayClose_node]
    by_cases hji : j = i
    · rw [hji, update_self]
    · rw [update_of_ne hji, hj]

/-- The descriptors `is` are closed. -/
theorem closeall_moves (hnodup : fs.allocated.Nodup) (ht : t ∈ fs.allocated) {is : List ℕ}
    (his : ∀ i ∈ is, i < FILES_STRUCT_NENTRY) :
    Moves t fs (is.foldl (fun fs i => fs.fdArrayClose t i) fs) ∧
      ∀ i ∈ is, ((is.foldl (fun fs i => fs.fdArrayClose t i) fs).files t).node i = none := by
  induction is generalizing fs with
  | nil => exact ⟨Moves.refl t fs, fun i hi => absurd hi List.not_mem_nil⟩
  | cons i is ih =>
    have hclose := fdArrayClose_moves hnodup ht (his i List.mem_cons_self)
    obtain ⟨hmoves, hnone⟩ := ih (hclose.allocated.symm ▸ hnodup) (hclose.allocated.symm ▸ ht)
      fun j hj => his j (List.mem_cons_of_mem _ hj)
    refine ⟨hclose.trans hmoves, ?_⟩
    intro j hj
    rcases List.mem_cons.mp hj with rfl | hj
    · exact closeall_none is (by rw [fdArrayClose_node, update_self])
    · exact hnone j hj

/-- The descriptors of `src` are copied. -/
theorem dupall_moves (hnodup : fs.allocated.Nodup) (ht : t ∈ fs.allocated) {is : List ℕ}
    (his : ∀ i ∈ is, i < FILES_STRUCT_NENTRY) (hdistinct : is.Nodup)
    (hnone : ∀ i ∈ is, (fs.files t).node i = none) :
    Moves t fs (is.foldl (fun fs i => fs.fdArrayDup t t' i) fs) := by
  induction is generalizing fs with
  | nil => exact Moves.refl t fs
  | cons i is ih =>
    obtain ⟨hi, hdistinct⟩ := List.nodup_cons.mp hdistinct
    have hdup : Moves t fs (fs.fdArrayDup t t' i) := by
      rw [fdArrayDup]
      split
      · exact Moves.refl t fs
      · exact fdArrayOpen_moves hnodup ht (his i List.mem_cons_self) (hnone i List.mem_cons_self)
    refine hdup.trans (ih (hdup.allocated.symm ▸ hnodup) (hdup.allocated.symm ▸ ht)
      (fun j hj => his j (List.mem_cons_of_mem _ hj)) hdistinct ?_)
    intro j hj
    have hji : j ≠ i := ne_of_mem_of_not_mem hj hi
    rw [← hnone j (List.mem_cons_of_mem _ hj), fdArrayDup]
    split
    · rfl
    · show (update fs.files t _ t).node j = _
      rw [update_self]
      exact update_of_ne hji _ _

/-! ### Tables come and go -/

theorem balance_setFiles_same (hnodup : fs.allocated.Nodup) (ht : t ∈ fs.allocated)
    (hpwd : F.pwd = (fs.files t).pwd) (hnode : F.node = (fs.files t).node) (n : ℕ) :
    (fs.setFiles t F).balance n = fs.balance n := by
  have hopens : F.opens n = (fs.files t).opens n := by
    rw [FilesStruct.opens, hnode]
    rfl
  rw [balance_setFiles hnodup ht, FilesStruct.held, FilesStruct.held, hpwd, hopens, sub_self, sub_self]
  exact sub_zero _

/-- Another current directory. -/
theorem balance_setPwd (hnodup : fs.allocated.Nodup) (ht : t ∈ fs.allocated) (n : ℕ) :
    (fs.setFiles t { fs.files t with pwd := v }).balance n =
      fs.balance n + (one (fs.files t).pwd n - one v n, 0) := by
  rw [balance_setFiles hnodup ht]
  have hopens : FilesStruct.opens { fs.files t with pwd := v } n = (fs.files t).opens n := rfl
  rw [FilesStruct.held, FilesStruct.held, hopens]
  ext
  · show _ - (one v n + _ - _) = _ + (_ - _)
    omega
  · show _ - (_ - _) = _ + (0 : ℤ)
    omega

/-- A new table holds nothing. -/
theorem balance_filesCreate (ht : t ∉ fs.allocated) (n : ℕ) :
    (fs.filesCreate t).balance n = fs.balance n := by
  have hrest : ∀ (g : FilesStruct → ℤ), (fs.allocated.map fun t' => g (update fs.files t
      ⟨none, 0, fun _ => none⟩ t')) = fs.allocated.map fun t' => g (fs.files t') := by
    intro g
    apply List.map_congr_left
    intro t' ht'
    rw [update_of_ne (ne_of_mem_of_not_mem ht' ht)]
  have hopens : FilesStruct.opens ⟨none, 0, fun _ => none⟩ n = 0 := by
    simp [FilesStruct.opens]
  have hheld : FilesStruct.held ⟨none, 0, fun _ => none⟩ n = 0 := by
    rw [FilesStruct.held, hopens]
    rfl
  ext
  · show fs.refCount n - ((t :: fs.allocated).map fun t' => (update fs.files t
      ⟨none, 0, fun _ => none⟩ t').held n).sum = _
    rw [List.map_cons, List.sum_cons, update_self, hheld, hrest fun F => F.held n, zero_add]
    rfl
  · show fs.openCount n - ((t :: fs.allocated).map fun t' => (update fs.files t
      ⟨none, 0, fun _ => none⟩ t').opens n).sum = _
    rw [List.map_cons, List.sum_cons, update_self, hopens, hrest fun F => F.opens n, zero_add]
    rfl

/-- A table that holds nothing is freed. -/
theorem balance_erase (ht : t ∈ fs.allocated) (n : ℕ) :
    balance { fs with allocated := fs.allocated.erase t } n =
      fs.balance n + ((fs.files t).held n, (fs.files t).opens n) := by
  have hsum : ∀ g : FilesStruct → ℤ, (fs.allocated.map fun t' => g (fs.files t')).sum =
      g (fs.files t) + ((fs.allocated.erase t).map fun t' => g (fs.files t')).sum := by
    intro g
    rw [((List.perm_cons_erase ht).map fun t' => g (fs.files t')).sum_eq, List.map_cons,
      List.sum_cons]
  ext
  · show fs.refCount n - ((fs.allocated.erase t).map fun t' => (fs.files t').held n).sum =
      fs.refCount n - (fs.allocated.map fun t' => (fs.files t').held n).sum + _
    rw [hsum fun F => F.held n]
    omega
  · show fs.openCount n - ((fs.allocated.erase t).map fun t' => (fs.files t').opens n).sum =
      fs.openCount n - (fs.allocated.map fun t' => (fs.files t').opens n).sum + _
    rw [hsum fun F => F.opens n]
    omega

/-- **`files_destroy`** gives back every reference of the table. -/
theorem filesDestroy_ok (hnodup : fs.allocated.Nodup) (ht : t ∈ fs.allocated)
    (hcount : (fs.files t).filesCount = 0) : ∃ fs', fs.filesDestroy t = .ok fs' ∧
      fs'.allocated = fs.allocated.erase t ∧ (∀ t', t' ≠ t → fs'.files t' = fs.files t') ∧
      ∀ n, fs'.balance n = fs.balance n := by
  obtain ⟨fs₁, hfs₁, hallocated₁, hfiles₁, hbalance₁⟩ : ∃ fs₁ : Tables,
      (match (fs.files t).pwd with | none => fs | some n => fs.vopRefDec n) = fs₁ ∧
        fs₁.allocated = fs.allocated ∧ fs₁.files = fs.files ∧
        ∀ n, fs₁.balance n = fs.balance n + (-1 * one (fs.files t).pwd n, 0) := by
    cases (fs.files t).pwd with
    | none => exact ⟨fs, rfl, rfl, rfl, fun n => (add_zero _).symm⟩
    | some m => exact ⟨_, rfl, rfl, rfl, fun n => balance_vopRefDec fs⟩
  obtain ⟨hmoves, hnone⟩ := closeall_moves (t := t) (show fs₁.allocated.Nodup from
    hallocated₁ ▸ hnodup) (hallocated₁.symm ▸ ht)
    (fun i hi => List.mem_range.mp hi : ∀ i ∈ List.range FILES_STRUCT_NENTRY, _)
  have hrun : fs.filesDestroy t = .ok { (List.range FILES_STRUCT_NENTRY).foldl
      (fun fs i => fs.fdArrayClose t i) fs₁ with allocated := ((List.range FILES_STRUCT_NENTRY).foldl
      (fun fs i => fs.fdArrayClose t i) fs₁).allocated.erase t } := by
    rw [filesDestroy, require_pos hcount, bind_ok, hfs₁]
  generalize (List.range FILES_STRUCT_NENTRY).foldl (fun fs i => fs.fdArrayClose t i) fs₁ = fs₂
    at hmoves hnone hrun
  have hallocated := hmoves.allocated.trans hallocated₁
  refine ⟨_, hrun, congrArg (fun l => l.erase t) hallocated, ?_, ?_⟩
  · intro t' ht'
    exact (hmoves.others t' ht').trans (congrFun hfiles₁ t')
  · intro n
    have hopens : (fs₂.files t).opens n = 0 := by
      apply Finset.sum_eq_zero
      intro i hi
      rw [hnone i (List.mem_range.mpr (Finset.mem_range.mp hi)), one_none]
    rw [balance_erase (hallocated.symm ▸ ht), hmoves.balance, hbalance₁,
      FilesStruct.held, hopens, hmoves.pwd, hfiles₁]
    ext
    · show _ + _ + (_ + (0 : ℤ)) = _
      omega
    · show _ + (0 : ℤ) + (0 : ℤ) = _
      omega

/-- The table `t` and the counts change, not the set of tables. -/
structure Touches (t : ℕ) (fs fs' : Tables) : Prop where
  allocated : fs'.allocated = fs.allocated
  others : ∀ t', t' ≠ t → fs'.files t' = fs.files t'
  balance : ∀ n, fs'.balance n = fs.balance n

theorem Moves.touches (h : Moves t fs fs') : Touches t fs fs' := ⟨h.allocated, h.others, h.balance⟩

theorem Touches.trans {fs'' : Tables} (h : Touches t fs fs') (h' : Touches t fs' fs'') :
    Touches t fs fs'' :=
  ⟨h'.allocated.trans h.allocated, fun t' ht' => (h'.others t' ht').trans (h.others t' ht'),
    fun n => (h'.balance n).trans (h.balance n)⟩

theorem setCount_touches (hnodup : fs.allocated.Nodup) (ht : t ∈ fs.allocated) (k : ℤ) :
    Touches t fs (fs.setFiles t { fs.files t with filesCount := k }) :=
  ⟨rfl, fun _ ht' => update_of_ne ht' _ _, balance_setFiles_same hnodup ht rfl rfl⟩

/-- The assertion of `files_destroy` holds in `put_files`. -/
theorem putFiles_total (fs : Tables) (t : ℕ) : ∃ fs', fs.putFiles t = .ok fs' := by
  rw [putFiles]
  split
  case isTrue hzero => exact ⟨_, by rw [filesDestroy, require_pos hzero, bind_ok]⟩
  case isFalse => exact ⟨_, rfl⟩

theorem dupFiles_cases (fs : Tables) (dst src : ℕ) :
    (∃ fs', fs.dupFiles dst src = .ok fs') ∨ fs.dupFiles dst src = .error .dupFiles := by
  by_cases h : (fs.files dst).filesCount = 0 ∧ 0 < (fs.files src).filesCount
  · exact Or.inl ⟨_, by rw [dupFiles, require_pos h, bind_ok]⟩
  · exact Or.inr (by rw [dupFiles, require, if_neg h, bind_error])

/-- **`put_files`**: the last user destroys the table. -/
theorem putFiles_ok (hnodup : fs.allocated.Nodup) (ht : t ∈ fs.allocated) :
    ∃ fs', fs.putFiles t = .ok fs' ∧ (∀ n, fs'.balance n = fs.balance n) ∧
      (∀ t', t' ≠ t → fs'.files t' = fs.files t') ∧
      if (fs.files t).filesCount = 1 then fs'.allocated = fs.allocated.erase t
      else fs'.allocated = fs.allocated ∧ (fs'.files t).filesCount = (fs.files t).filesCount - 1 := by
  have hdec := setCount_touches hnodup ht ((fs.files t).filesCount - 1)
  have hcount : ((fs.filesCountDec t).files t).filesCount = (fs.files t).filesCount - 1 := by
    show (update fs.files t _ t).filesCount = _
    rw [update_self]
  rw [putFiles, hcount]
  by_cases hone : (fs.files t).filesCount = 1
  · have hzero : (fs.files t).filesCount - 1 = 0 := by omega
    obtain ⟨fs', hrun, hallocated, hothers, hbalance⟩ :=
      filesDestroy_ok (show (fs.filesCountDec t).allocated.Nodup from hnodup) ht (hcount.trans hzero)
    refine ⟨fs', (if_pos hzero).trans hrun, fun n => (hbalance n).trans (hdec.balance n),
      fun t' ht' => (hothers t' ht').trans (hdec.others t' ht'), ?_⟩
    rw [if_pos hone]
    exact hallocated
  · refine ⟨fs.filesCountDec t, if_neg (by omega), hdec.balance, hdec.others, ?_⟩
    rw [if_neg hone]
    exact ⟨rfl, hcount⟩

/-- **`dup_files`** into a new table. -/
theorem dupFiles_ok (hnodup : fs.allocated.Nodup) (ht : t ∈ fs.allocated) (hne : t' ≠ t)
    (hnew : fs.files t = ⟨none, 0, fun _ => none⟩) (hpos : 0 < (fs.files t').filesCount) :
    ∃ fs', fs.dupFiles t t' = .ok fs' ∧ Touches t fs fs' ∧ (fs'.files t).filesCount = 0 := by
  let fs₁ := fs.setFiles t { fs.files t with pwd := (fs.files t').pwd }
  have hsrc : fs₁.files t' = fs.files t' := update_of_ne hne _ _
  have hdst : fs₁.files t = ⟨(fs.files t').pwd, 0, fun _ => none⟩ := by
    show update fs.files t _ t = _
    rw [update_self, hnew]
  have hpwd : ∀ n, fs₁.balance n = fs.balance n + (-1 * one (fs.files t').pwd n, 0) := by
    intro n
    rw [show fs₁ = fs.setFiles t { fs.files t with pwd := (fs.files t').pwd } from rfl,
      balance_setPwd hnodup ht, hnew, one_none, zero_sub, Int.neg_one_mul]
  obtain ⟨fs₂, hfs₂, hallocated₂, hfiles₂, hbalance₂⟩ : ∃ fs₂ : Tables,
      (match (fs₁.files t').pwd with | none => fs₁ | some n => fs₁.vopRefInc n) = fs₂ ∧
        fs₂.allocated = fs₁.allocated ∧ fs₂.files = fs₁.files ∧
        ∀ n, fs₂.balance n = fs₁.balance n + (1 * one (fs.files t').pwd n, 0) := by
    rw [hsrc]
    cases (fs.files t').pwd with
    | none => exact ⟨fs₁, rfl, rfl, rfl, fun n => (add_zero _).symm⟩
    | some m => exact ⟨_, rfl, rfl, rfl, fun n => balance_vopRefInc fs₁⟩
  have hmoves : Moves t fs₂ ((List.range FILES_STRUCT_NENTRY).foldl
      (fun fs i => fs.fdArrayDup t t' i) fs₂) := dupall_moves (hallocated₂ ▸ hnodup) (hallocated₂.symm ▸ ht) (fun i hi => List.mem_range.mp hi)
    List.nodup_range fun i _ => by rw [hfiles₂, hdst]
  have hrun : fs.dupFiles t t' = .ok ((List.range FILES_STRUCT_NENTRY).foldl
      (fun fs i => fs.fdArrayDup t t' i) fs₂) := by
    rw [dupFiles, require_pos ⟨by rw [hnew], hpos⟩, bind_ok]
    exact congrArg (fun fs : Tables => Except.ok ((List.range FILES_STRUCT_NENTRY).foldl
      (fun fs i => fs.fdArrayDup t t' i) fs)) hfs₂
  refine ⟨_, hrun, Touches.trans ?_ hmoves.touches, ?_⟩
  · refine ⟨hallocated₂, fun u hu => (congrFun hfiles₂ u).trans (update_of_ne hu _ _), ?_⟩
    intro n
    rw [hbalance₂, hpwd]
    ext
    · show _ + _ + _ = _
      omega
    · show _ + (0 : ℤ) + (0 : ℤ) = _
      omega
  · rw [hmoves.filesCount, hfiles₂, hdst]

/-- The current directory changes. -/
theorem setCurdir_ok (hnodup : fs.allocated.Nodup) (ht : t ∈ fs.allocated) :
    Touches t fs (fs.setCurdir t m) ∧
      ((fs.setCurdir t m).files t).filesCount = (fs.files t).filesCount := by
  rw [setCurdir]
  by_cases hsame : (fs.files t).pwd = some m
  · rw [if_pos hsame]
    exact ⟨⟨rfl, fun _ _ => rfl, fun _ => rfl⟩, rfl⟩
  · rw [if_neg hsame]
    have hnew : ∀ n, ((fs.vopRefInc m).setFiles t { fs.files t with pwd := some m }).balance n =
        fs.balance n + (one (fs.files t).pwd n, 0) := by
      intro n
      have hset := balance_setPwd (v := some m)
        (show (fs.vopRefInc m).allocated.Nodup from hnodup) ht n
      have hfiles : (fs.vopRefInc m).files t = fs.files t := rfl
      rw [hfiles] at hset
      rw [hset, balance_vopRefInc]
      ext
      · show _ + _ + (_ - _) = _ + _
        omega
      · show _ + (0 : ℤ) + (0 : ℤ) = _ + (0 : ℤ)
        omega
    have hself : (update fs.files t { fs.files t with pwd := some m } t).filesCount =
        (fs.files t).filesCount := by rw [update_self]
    dsimp only
    split
    case h_1 hnone =>
      refine ⟨⟨rfl, fun t' ht' => update_of_ne ht' _ _, ?_⟩, hself⟩
      intro n
      rw [hnew, hnone, one_none]
      exact add_zero _
    case h_2 m' hm' =>
      refine ⟨⟨rfl, fun t' ht' => update_of_ne ht' _ _, ?_⟩, hself⟩
      intro n
      rw [balance_vopRefDec, hnew, hm']
      ext
      · show _ + _ + _ = _
        omega
      · show _ + (0 : ℤ) + (0 : ℤ) = _
        omega

/-- `files_closeall`. -/
theorem filesCloseall_ok (hnodup : fs.allocated.Nodup) (ht : t ∈ fs.allocated)
    (hrun : fs.filesCloseall t = .ok fs') : Moves t fs fs' ∧ ∀ i < FILES_STRUCT_NENTRY,
      2 ≤ i ∨ (fs.files t).node i = none → (fs'.files t).node i = none := by
  obtain ⟨_, -, heq⟩ := bind_eq_ok.mp hrun
  have heq := Except.ok.inj heq
  have hconst : 2 + (FILES_STRUCT_NENTRY - 2) = FILES_STRUCT_NENTRY := rfl
  have hrange : ∀ i ∈ List.range' 2 (FILES_STRUCT_NENTRY - 2), i < FILES_STRUCT_NENTRY := by
    intro i hi
    obtain ⟨hle, hlt⟩ := List.mem_range'_1.mp hi
    omega
  obtain ⟨hmoves, hnone⟩ := closeall_moves hnodup ht hrange
  rw [heq] at hmoves hnone
  refine ⟨hmoves, ?_⟩
  rintro i hi (hle | hi')
  · exact hnone i (List.mem_range'_1.mpr ⟨hle, by omega⟩)
  · rw [← heq]
    exact closeall_none _ hi'

end Tables

end Ucore.Proc
