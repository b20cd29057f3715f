import Mathlib.Data.BitVec
import Mathlib.Logic.Function.Basic

/-!
# Shared user pages in lab5 (`lab5/kern/mm/pmm.c`, `lab5/kern/mm/vmm.c`)

An address space has its segments and its page table: for each user page, by page number, an entry
with a frame and the ten flag bits.  The two directory levels above the entries appear as `hasTable`
only, which says whether the table of a 2 MB region exists; the entries of a table that does not
exist are zero.

A frame has a reference count and its contents.  The frames of this model are those the allocator
has for user pages; the pages used for the tables themselves are not among them.  `alloc_page` may
answer with any free frame or `NULL`, and the allocation of a table may fail: each call takes these
answers as an argument.

Addresses of pages are page numbers wherever the code asserts that they are multiples of `PGSIZE`.
-/

namespace Ucore.Cow

def PGSIZE : ℕ := 4096

/-- Pages in the region of one table, `PTSIZE / PGSIZE`. -/
def NPTEENTRY : ℕ := 512

def USERBASE : ℕ := 0x200000

def USERTOP : ℕ := 0x80000000

def E_INVAL : ℤ := 3

def E_NO_MEM : ℤ := 4

/-! ### Flags -/

/-- The flag bits of a page table entry. -/
abbrev Perm := BitVec 10

def PTE_V : Perm := 0x001

def PTE_R : Perm := 0x002

def PTE_W : Perm := 0x004

def PTE_X : Perm := 0x008

def PTE_U : Perm := 0x010

def PTE_COW : Perm := 0x100

def PTE_USER : Perm := PTE_R ||| PTE_W ||| PTE_X ||| PTE_U ||| PTE_V

/-- The test `flags & bit`. -/
def has (flags bit : Perm) : Bool := flags &&& bit != 0

/-- The flags of a segment, `vm_flags`. -/
abbrev VmFlags := BitVec 32

def VM_READ : VmFlags := 0x1

def VM_WRITE : VmFlags := 0x2

def VM_EXEC : VmFlags := 0x4

/-- `vma_perm`. -/
def vmaPerm (vmFlags : VmFlags) : Perm :=
  let perm := PTE_U ||| PTE_V
  let perm := if vmFlags &&& VM_READ ≠ 0 then perm ||| PTE_R else perm
  let perm := if vmFlags &&& VM_WRITE ≠ 0 then perm ||| (PTE_W ||| PTE_R) else perm
  if vmFlags &&& VM_EXEC ≠ 0 then perm ||| PTE_X else perm

/-! ### State -/

/-- `struct vma_struct`: the segment `[vm_start, vm_end)`. -/
structure Vma where
  vmStart : ℕ
  vmEnd : ℕ
  vmFlags : VmFlags
  deriving Repr

/-- A page table entry. -/
structure Pte where
  ppn : ℕ
  flags : Perm
  deriving DecidableEq, Repr

/-- The entry `0`. -/
def Pte.zero : Pte := ⟨0, 0⟩

/-- `pte_create`. -/
def pteCreate (ppn : ℕ) (type : Perm) : Pte := ⟨ppn, PTE_V ||| type⟩

/-- `struct mm_struct` with its page table.  `mmap_cache`, which remembers the last answer of
`find_vma`, is left out. -/
structure Mm where
  mmapList : List Vma
  hasTable : ℕ → Bool
  pte : ℕ → Pte

/-- The contents of a frame. -/
abbrev Bytes := Fin PGSIZE → UInt8

/-- All address spaces and all frames. -/
structure State where
  mm : ℕ → Mm
  ref : ℕ → ℕ
  data : ℕ → Bytes
  free : ℕ → Bool

/-- The entry of page `p` in address space `a`. -/
def State.pte (s : State) (a p : ℕ) : Pte := (s.mm a).pte p

/-- The assignment `*ptep = e`. -/
def State.setPte (s : State) (a p : ℕ) (e : Pte) : State :=
  { s with mm := Function.update s.mm a { s.mm a with pte := Function.update (s.mm a).pte p e } }

def State.setData (s : State) (f : ℕ) (d : Bytes) : State :=
  { s with data := Function.update s.data f d }

/-- `page_ref_inc`. -/
def pageRefInc (f : ℕ) (s : State) : State := { s with ref := Function.update s.ref f (s.ref f + 1) }

/-- `page_ref_dec`. -/
def pageRefDec (f : ℕ) (s : State) : State := { s with ref := Function.update s.ref f (s.ref f - 1) }

/-- `alloc_page`, when the allocator answers with `answer`; only a free frame is an answer. -/
def allocPage (answer : Option ℕ) (s : State) : Option (ℕ × State) :=
  match answer with
  | some f => if s.free f then some (f, { s with free := Function.update s.free f false }) else none
  | none => none

/-- `free_page`. -/
def freePage (f : ℕ) (s : State) : State := { s with free := Function.update s.free f true }

/-- `find_vma`. -/
def findVma (mm : Mm) (addr : ℕ) : Option Vma :=
  mm.mmapList.find? fun vma => vma.vmStart ≤ addr && addr < vma.vmEnd

/-! ### Page tables -/

/-- `get_pte`: `none` for `NULL`, otherwise the table of the page exists afterwards.  `answer` says
whether the allocation of a missing table succeeds. -/
def getPte (create answer : Bool) (a p : ℕ) (s : State) : Option State :=
  if (s.mm a).hasTable (p / NPTEENTRY) then some s
  else if create && answer then
    some { s with mm := Function.update s.mm a { s.mm a with
      hasTable := Function.update (s.mm a).hasTable (p / NPTEENTRY) true } }
  else none

/-- `page_remove_pte`. -/
def pageRemovePte (a p : ℕ) (s : State) : State :=
  if has (s.pte a p).flags PTE_V then
    let page := (s.pte a p).ppn
    let s := pageRefDec page s
    let s := if s.ref page = 0 then freePage page s else s
    s.setPte a p Pte.zero
  else s

/-- `page_remove`. -/
def pageRemove (a p : ℕ) (s : State) : State :=
  match getPte false false a p s with
  | some s => pageRemovePte a p s
  | none => s

/-- `page_insert`. -/
def pageInsert (answer : Bool) (a page p : ℕ) (perm : Perm) (s : State) : ℤ × State :=
  match getPte true answer a p s with
  | none => (-E_NO_MEM, s)
  | some s =>
    let s := pageRefInc page s
    let s :=
      if has (s.pte a p).flags PTE_V then
        if (s.pte a p).ppn = page then pageRefDec page s else pageRemovePte a p s
      else s
    (0, s.setPte a p (pteCreate page (PTE_V ||| perm)))

/-- `USER_ACCESS`, for the pages `[start, stop)`. -/
def userAccess (start stop : ℕ) : Prop :=
  USERBASE ≤ start * PGSIZE ∧ start < stop ∧ stop * PGSIZE ≤ USERTOP

instance (start stop : ℕ) : Decidable (userAccess start stop) :=
  inferInstanceAs (Decidable (_ ∧ _))

/-- The first page of the next region, `ROUNDDOWN(start + PTSIZE, PTSIZE)`. -/
def nextRegion (start : ℕ) : ℕ := (start + NPTEENTRY) / NPTEENTRY * NPTEENTRY

/-- The loop of `unmap_range`; `k` bounds the number of turns. -/
def unmapLoop (a stop : ℕ) : ℕ → ℕ → State → State
  | 0, _, s => s
  | k + 1, start, s =>
    if start < stop then
      match getPte false false a start s with
      | none => unmapLoop a stop k (nextRegion start) s
      | some s =>
        let s := if s.pte a start ≠ Pte.zero then pageRemovePte a start s else s
        unmapLoop a stop k (start + 1) s
    else s

/-- `unmap_range`; `none` when its assertion fails. -/
def unmapRange (a start stop : ℕ) (s : State) : Option State :=
  if userAccess start stop then some (unmapLoop a stop (stop - start) start s) else none

/-- The turn of `copy_range` with `share` for a page with a valid entry, and whether the loop goes
on. -/
def sharePage (answer : Bool) (dst src p : ℕ) (s : State) : Bool × State :=
  match getPte true answer dst p s with
  | none => (false, s)
  | some s =>
    let perm := (s.pte src p).flags &&& PTE_USER
    let page := (s.pte src p).ppn
    let perm := (perm ||| PTE_COW) &&& ~~~PTE_W
    let s := s.setPte src p ⟨page, ((s.pte src p).flags ||| PTE_COW) &&& ~~~PTE_W⟩
    let (ret, s) := pageInsert answer dst page p perm s
    (ret = 0, s)

/-- The loop of `copy_range` with `share`.  The result is `none` where the code returns 0 and
`some p` where it returns `-E_NO_MEM` at page `p`. -/
def copyLoop (answer : ℕ → Bool) (dst src stop : ℕ) : ℕ → ℕ → State → Option ℕ × State
  | 0, _, s => (none, s)
  | k + 1, start, s =>
    if start < stop then
      match getPte false false src start s with
      | none => copyLoop answer dst src stop k (nextRegion start) s
      | some s =>
        if has (s.pte src start).flags PTE_V then
          match sharePage (answer start) dst src start s with
          | (false, s) => (some start, s)
          | (true, s) => copyLoop answer dst src stop k (start + 1) s
        else copyLoop answer dst src stop k (start + 1) s
    else (none, s)

/-- `copy_range(to, from, start, end, share)` with `share = 1`; `none` when its assertion fails. -/
def copyRange (answer : ℕ → Bool) (dst src start stop : ℕ) (s : State) :
    Option (Option ℕ × State) :=
  if userAccess start stop then some (copyLoop answer dst src stop (stop - start) start s)
  else none

/-! ### Page faults -/

/-- The answers of the allocator during one call. -/
structure Answers where
  table : Bool
  page : Option ℕ

/-- `do_pgfault`. -/
def doPgfault (answers : Answers) (a : ℕ) (errorCode : Perm) (addr : ℕ) (s : State) : ℤ × State :=
  let p := addr / PGSIZE
  match findVma (s.mm a) (p * PGSIZE) with
  | none => (-E_INVAL, s)
  | some vma =>
    if vma.vmStart > p * PGSIZE then (-E_INVAL, s) else
    let perm := vmaPerm vma.vmFlags
    match getPte true answers.table a p s with
    | none => (-E_NO_MEM, s)
    | some s =>
      let needWrite := has errorCode PTE_W
      let e := s.pte a p
      if has e.flags PTE_V then
        if has e.flags PTE_COW && needWrite then
          if s.ref e.ppn > 1 then
            match allocPage answers.page s with
            | none => (-E_NO_MEM, s)
            | some (npage, s) =>
              let s := s.setData npage (s.data e.ppn)
              let perm := perm &&& ~~~PTE_COW
              let perm := perm ||| PTE_W
              pageInsert answers.table a npage p perm s
          else (0, s.setPte a p ⟨e.ppn, (e.flags ||| PTE_W) &&& ~~~PTE_COW⟩)
        else (-E_INVAL, s)
      else
        match allocPage answers.page s with
        | none => (-E_NO_MEM, s)
        | some (npage, s) =>
          let s := s.setData npage fun _ => 0
          pageInsert answers.table a npage p perm s

/-- `pgdir_alloc_page`, and the kernel filling the new page with `d`. -/
def pgdirAllocPage (answers : Answers) (a p : ℕ) (perm : Perm) (d : Bytes) (s : State) :
    Option ℕ × State :=
  match allocPage answers.page s with
  | none => (none, s)
  | some (page, s) =>
    let (ret, s) := pageInsert answers.table a page p perm s
    if ret ≠ 0 then (none, freePage page s) else (some page, s.setData page d)

/-- A byte stored by a user program through the entry of page `p`. -/
def userStore (a p : ℕ) (i : Fin PGSIZE) (b : UInt8) (s : State) : State :=
  let f := (s.pte a p).ppn
  s.setData f (Function.update (s.data f) i b)

end Ucore.Cow
