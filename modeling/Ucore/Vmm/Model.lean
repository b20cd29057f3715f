import Mathlib.Data.BitVec
import Ucore.Lib.Fallible

/-!
# Memory areas in lab8 (`lab8/kern/mm/vmm.c`)

A `vma_struct` is an area `[vm_start, vm_end)` of user addresses with its flags, and the `mm_struct`
of a process has the list of its areas and the area that `find_vma` found last.  An area does not
change after `vma_create`, so the list has the areas themselves.

`uintptr_t` and `size_t` are 64 bits wide, and their sums wrap.  Whether `kmalloc` has the memory of
one more `vma_struct` is an argument of the calls that ask for it.
-/

namespace Ucore.Vmm

open Fallible

abbrev Uintptr := BitVec 64

def PGSIZE : Uintptr := 4096

def USERBASE : Uintptr := 0x00200000

def USERTOP : Uintptr := 0x80000000

def E_INVAL : ℤ := 3

def E_NO_MEM : ℤ := 4

/-- `ROUNDDOWN(a, PGSIZE)`. -/
def roundDown (a : Uintptr) : Uintptr := a - a % PGSIZE

/-- `ROUNDUP(a, PGSIZE)`. -/
def roundUp (a : Uintptr) : Uintptr := roundDown (a + PGSIZE - 1)

/-- `USER_ACCESS`. -/
def userAccess (start stop : Uintptr) : Bool := USERBASE ≤ start && start < stop && stop ≤ USERTOP

/-- `struct vma_struct`. -/
structure Vma where
  vmStart : Uintptr
  vmEnd : Uintptr
  vmFlags : BitVec 32
  deriving DecidableEq, Repr

/-- The address belongs to the area. -/
def Vma.contains (vma : Vma) (addr : Uintptr) : Bool := vma.vmStart ≤ addr && addr < vma.vmEnd

/-- `struct mm_struct`: the areas, and the fields that say something about them. -/
structure MmStruct where
  mmapList : List Vma
  mmapCache : Option Vma
  mapCount : ℤ
  deriving DecidableEq, Repr

/-- The assertions of `insert_vma_struct` and of `check_vma_overlap`. -/
inductive Panic
  | emptyVma
  | vmaOverlap
  deriving DecidableEq, Repr

/-- `vma_create`; `NULL` when `mem` is false. -/
def vmaCreate (mem : Bool) (vmStart vmEnd : Uintptr) (vmFlags : BitVec 32) : Option Vma :=
  if mem then some ⟨vmStart, vmEnd, vmFlags⟩ else none

/-- `find_vma`. -/
def findVma (mm : MmStruct) (addr : Uintptr) : Option Vma × MmStruct :=
  let vma := match mm.mmapCache with
    | some vma => if vma.contains addr then some vma else mm.mmapList.find? (·.contains addr)
    | none => mm.mmapList.find? (·.contains addr)
  match vma with
  | some vma => (some vma, { mm with mmapCache := some vma })
  | none => (none, mm)

/-- `check_vma_overlap`. -/
def checkVmaOverlap (prev next : Vma) : Except Panic Unit := do
  require (prev.vmStart < prev.vmEnd) .vmaOverlap
  require (prev.vmEnd ≤ next.vmStart) .vmaOverlap
  require (next.vmStart < next.vmEnd) .vmaOverlap

/-- The areas that the search of `insert_vma_struct` goes past; `le_prev` is the last of them. -/
def passed (vmas : List Vma) (vma : Vma) : List Vma :=
  vmas.takeWhile fun mmapPrev => !(vma.vmStart < mmapPrev.vmStart)

/-- The areas from `le_next` on. -/
def rest (vmas : List Vma) (vma : Vma) : List Vma :=
  vmas.dropWhile fun mmapPrev => !(vma.vmStart < mmapPrev.vmStart)

/-- `insert_vma_struct`. -/
def insertVmaStruct (mm : MmStruct) (vma : Vma) : Except Panic MmStruct := do
  require (vma.vmStart < vma.vmEnd) .emptyVma
  match (passed mm.mmapList vma).getLast? with
    | some prev => checkVmaOverlap prev vma
    | none => pure ()
  match (rest mm.mmapList vma).head? with
    | some next => checkVmaOverlap vma next
    | none => pure ()
  pure { mm with
    mmapList := passed mm.mmapList vma ++ vma :: rest mm.mmapList vma
    mapCount := mm.mapCount + 1 }

/-- `mm_map`.  The second component is what `*vma_store` gets. -/
def mmMap (mem : Bool) (mm : MmStruct) (addr len : Uintptr) (vmFlags : BitVec 32) :
    Except Panic (ℤ × Option Vma × MmStruct) := do
  let start := roundDown addr
  let stop := roundUp (addr + len)
  if !userAccess start stop then
    return (-E_INVAL, none, mm)
  let (vma, mm) := findVma mm start
  if vma.any (·.vmStart < stop) then
    return (-E_INVAL, none, mm)
  match vmaCreate mem start stop vmFlags with
  | none => return (-E_NO_MEM, none, mm)
  | some vma => return (0, some vma, ← insertVmaStruct mm vma)

end Ucore.Vmm
