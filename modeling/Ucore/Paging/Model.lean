import Mathlib.Data.Finset.Card
import Ucore.Cow.Model

/-!
# The page tables of lab8 (`kern/mm/pmm.c`, `kern/mm/vmm.c`)

The user part of an address space is a tree of two levels under the page directory: an entry of
`pgdir` leads to an intermediate directory page (`pd0` in the code), an entry of that page to a page
table, and the entry of the table to a frame.  Every node carries the page it occupies.  An entry
without `PTE_V` on the two upper levels is `none`; it is only ever the zero `get_pte` finds or
`exit_range` stores.

Tables and frames come from one allocator.  `alloc_page` answers with any free page, or with `NULL` at
any call: `kmalloc` and the kernel stacks take their pages from it too.  `freed` records the calls of `free_page`, the latest first, with
what the page held at the call; the code has no such record, it is there to be counted.

The entries, their flags and the checks on user ranges are those of lab5.  Addresses of pages are
page numbers wherever the code has asserted that they are multiples of `PGSIZE`.
-/

namespace Ucore.Paging

open Cow (Bytes E_NO_MEM NPTEENTRY PGSIZE PTE_USER PTE_V Perm Pte USERBASE USERTOP Vma has nextRegion
  pteCreate)

def NPDEENTRY : ℕ := 512

/-- Pages below one directory page, `PDSIZE / PGSIZE`. -/
def PDPAGES : ℕ := NPTEENTRY * NPDEENTRY

/-- `PTX`, of a page number. -/
def ptx (p : ℕ) : Fin NPTEENTRY := ⟨p % NPTEENTRY, Nat.mod_lt _ (by decide)⟩

/-- `PDX0`, of a page number. -/
def pdx0 (p : ℕ) : Fin NPDEENTRY := ⟨p / NPTEENTRY % NPDEENTRY, Nat.mod_lt _ (by decide)⟩

/-- `PDX1`, of a page number.  User addresses are far below `2 ^ 39`, where its mask matters. -/
def pdx1 (p : ℕ) : ℕ := p / PDPAGES

/-- A page table. -/
structure Table where
  page : ℕ
  entry : Fin NPTEENTRY → Pte

/-- An intermediate directory page. -/
structure Dir where
  page : ℕ
  entry : Fin NPDEENTRY → Option Table

/-- A page handed to `free_page`, with what it holds. -/
inductive Released
  | user (page : ℕ)
  | table (pt : Table)
  | dir (pd0 : Dir)

def Released.page : Released → ℕ
  | user page => page
  | table pt => pt.page
  | dir pd0 => pd0.page

/-- All address spaces and all pages. -/
structure State where
  pgdir : ℕ → ℕ → Option Dir
  ref : ℕ → ℤ
  data : ℕ → Bytes
  free : Finset ℕ
  freed : List Released

/-- The table of page `p` in address space `a`; `get_pte` without `create` answers `NULL` when it is
missing. -/
def State.table (s : State) (a p : ℕ) : Option Table :=
  match s.pgdir a (pdx1 p) with
  | some pd0 => pd0.entry (pdx0 p)
  | none => none

/-- The entry of page `p` in address space `a`; without a table it is zero. -/
def State.pte (s : State) (a p : ℕ) : Pte :=
  match s.table a p with
  | some pt => pt.entry (ptx p)
  | none => Pte.zero

/-- The assignment `pgdir[i] = pde`. -/
def State.setDir (s : State) (a i : ℕ) (pde : Option Dir) : State :=
  { s with pgdir := Function.update s.pgdir a (Function.update (s.pgdir a) i pde) }

/-- The assignment `pd0[i] = pde`. -/
def Dir.set (pd0 : Dir) (i : Fin NPDEENTRY) (pde : Option Table) : Dir :=
  { pd0 with entry := Function.update pd0.entry i pde }

/-- The assignment `pt[i] = e`. -/
def Table.set (pt : Table) (i : Fin NPTEENTRY) (e : Pte) : Table :=
  { pt with entry := Function.update pt.entry i e }

/-- The assignment `*ptep = e`, for an entry that has a table. -/
def State.setPte (s : State) (a p : ℕ) (e : Pte) : State :=
  match s.pgdir a (pdx1 p) with
  | some pd0 =>
    match pd0.entry (pdx0 p) with
    | some pt => s.setDir a (pdx1 p) (some (pd0.set (pdx0 p) (some (pt.set (ptx p) e))))
    | none => s
  | none => s

def State.setData (s : State) (f : ℕ) (d : Bytes) : State :=
  { s with data := Function.update s.data f d }

/-- `set_page_ref`. -/
def setPageRef (f : ℕ) (n : ℤ) (s : State) : State := { s with ref := Function.update s.ref f n }

/-- `page_ref_inc`. -/
def pageRefInc (f : ℕ) (s : State) : State := setPageRef f (s.ref f + 1) s

/-- `page_ref_dec`. -/
def pageRefDec (f : ℕ) (s : State) : State := setPageRef f (s.ref f - 1) s

/-- What the allocator answers when `free` are the free pages: one of them, or `NULL`. -/
abbrev Allocator := ∀ free : Finset ℕ, Option {f // f ∈ free}

/-- `alloc_page`. -/
def allocPage (alloc : Allocator) (s : State) : Option (ℕ × State) :=
  match alloc s.free with
  | none => none
  | some page => some (page.1, { s with free := s.free.erase page.1 })

/-- `free_page`; the allocator clears the counter. -/
def freePage (x : Released) (s : State) : State :=
  setPageRef x.page 0 { s with free := insert x.page s.free, freed := x :: s.freed }

/-! ### `get_pte` -/

/-- The first half of `get_pte`: the directory page. -/
def getDir (alloc : Allocator) (create : Bool) (a p : ℕ) (s : State) : Option Dir × State :=
  match s.pgdir a (pdx1 p) with
  | some pd0 => (some pd0, s)
  | none =>
    if create then
      match allocPage alloc s with
      | none => (none, s)
      | some (page, s) =>
        let s := setPageRef page 1 s
        let pd0 : Dir := ⟨page, fun _ => none⟩
        (some pd0, s.setDir a (pdx1 p) (some pd0))
    else (none, s)

/-- `get_pte`, and whether its answer is an entry; if so, the table of the page exists. -/
def getPte (alloc : Allocator) (create : Bool) (a p : ℕ) (s : State) : Bool × State :=
  match getDir alloc create a p s with
  | (none, s) => (false, s)
  | (some pd0, s) =>
    match pd0.entry (pdx0 p) with
    | some _ => (true, s)
    | none =>
      if create then
        match allocPage alloc s with
        | none => (false, s)
        | some (page, s) =>
          let s := setPageRef page 1 s
          (true, s.setDir a (pdx1 p) (some (pd0.set (pdx0 p) (some ⟨page, fun _ => Pte.zero⟩))))
      else (false, s)

/-! ### Entries -/

/-- `page_remove_pte`. -/
def pageRemovePte (a p : ℕ) (s : State) : State :=
  if has (s.pte a p).flags PTE_V then
    let page := (s.pte a p).ppn
    let s := pageRefDec page s
    let s := if s.ref page = 0 then freePage (.user page) s else s
    s.setPte a p Pte.zero
  else s

/-- `page_insert`. -/
def pageInsert (alloc : Allocator) (a page p : ℕ) (perm : Perm) (s : State) : ℤ × State :=
  match getPte alloc true a p s with
  | (false, s) => (-E_NO_MEM, s)
  | (true, s) =>
    let s := pageRefInc page s
    let s :=
      if has (s.pte a p).flags PTE_V then
        if (s.pte a p).ppn = page then pageRefDec page s else pageRemovePte a p s
      else s
    (0, s.setPte a p (pteCreate page (PTE_V ||| perm)))

/-- The assertions on the range of addresses `[start, stop)`. -/
def UserRange (start stop : ℕ) : Prop :=
  (start % PGSIZE = 0 ∧ stop % PGSIZE = 0) ∧
    USERBASE ≤ start ∧ start < stop ∧ stop ≤ USERTOP

instance (start stop : ℕ) : Decidable (UserRange start stop) :=
  inferInstanceAs (Decidable (_ ∧ _))

/-- The loop of `unmap_range`; `k` bounds the number of turns. -/
def unmapLoop (a stop : ℕ) : ℕ → ℕ → State → State
  | 0, _, s => s
  | k + 1, start, s =>
    if start < stop then
      match s.table a start with
      | none => unmapLoop a stop k (nextRegion start) s
      | some _ =>
        let s := if s.pte a start ≠ Pte.zero then pageRemovePte a start s else s
        unmapLoop a stop k (start + 1) s
    else s

/-- `unmap_range`; `none` when an assertion fails. -/
def unmapRange (a start stop : ℕ) (s : State) : Option State :=
  if UserRange start stop then
    some (unmapLoop a (stop / PGSIZE) (stop / PGSIZE - start / PGSIZE) (start / PGSIZE) s)
  else none

/-- The turn of `copy_range` for a page with a valid entry; `none` when an assertion fails. -/
def copyPage (alloc : Allocator) (dst src p : ℕ) (s : State) : Option (ℤ × State) :=
  match getPte alloc true dst p s with
  | (false, s) => some (-E_NO_MEM, s)
  | (true, s) =>
    let perm := (s.pte src p).flags &&& PTE_USER
    let page := (s.pte src p).ppn
    match allocPage alloc s with
    | none => none
    | some (npage, s) =>
      let s := s.setData npage (s.data page)
      match pageInsert alloc dst npage p perm s with
      | (ret, s) => if ret = 0 then some (0, s) else none

/-- The loop of `copy_range`. -/
def copyLoop (alloc : Allocator) (dst src stop : ℕ) : ℕ → ℕ → State → Option (ℤ × State)
  | 0, _, s => some (0, s)
  | k + 1, start, s =>
    if start < stop then
      match s.table src start with
      | none => copyLoop alloc dst src stop k (nextRegion start) s
      | some _ =>
        if has (s.pte src start).flags PTE_V then
          match copyPage alloc dst src start s with
          | none => none
          | some (ret, s) =>
            if ret = 0 then copyLoop alloc dst src stop k (start + 1) s else some (ret, s)
        else copyLoop alloc dst src stop k (start + 1) s
    else some (0, s)

/-- `copy_range(to, from, start, end, share)`, which does not look at `share`; `none` when an
assertion fails. -/
def copyRange (alloc : Allocator) (dst src start stop : ℕ) (s : State) : Option (ℤ × State) :=
  if UserRange start stop then
    copyLoop alloc dst src (stop / PGSIZE) (stop / PGSIZE - start / PGSIZE) (start / PGSIZE) s
  else none

/-! ### Tearing down -/

/-- The loop that sets `free_pt`. -/
def Table.freePt (pt : Table) : Bool :=
  (List.finRange NPTEENTRY).all fun i => !has (pt.entry i).flags PTE_V

/-- A turn of the inner loop of `exit_range`, on the directory page `pd0` and `free_pd0`. -/
def exitTable (d0start : ℕ) (freePd0 : Bool) (pd0 : Dir) (s : State) : Bool × Dir × State :=
  match pd0.entry (pdx0 d0start) with
  | some pt =>
    if pt.freePt then (freePd0, pd0.set (pdx0 d0start) none, freePage (.table pt) s)
    else (freePd0, pd0, s)
  | none => (false, pd0, s)

/-- The inner loop of `exit_range`. -/
def exitTables (d1start stop : ℕ) : ℕ → ℕ → Bool → Dir → State → Bool × Dir × State
  | 0, _, freePd0, pd0, s => (freePd0, pd0, s)
  | k + 1, d0start, freePd0, pd0, s =>
    match exitTable d0start freePd0 pd0 s with
    | (freePd0, pd0, s) =>
      let d0start := d0start + NPTEENTRY
      if d0start < d1start + PDPAGES ∧ d0start < stop then
        exitTables d1start stop k d0start freePd0 pd0 s
      else (freePd0, pd0, s)

/-- A turn of the outer loop of `exit_range`. -/
def exitDir (a stop d1start d0start : ℕ) (s : State) : State :=
  match s.pgdir a (pdx1 d1start) with
  | some pd0 =>
    match exitTables d1start stop NPDEENTRY d0start true pd0 s with
    | (true, pd0, s) => (freePage (.dir pd0) s).setDir a (pdx1 d1start) none
    | (false, pd0, s) => s.setDir a (pdx1 d1start) (some pd0)
  | none => s

/-- The outer loop of `exit_range`. -/
def exitLoop (a stop : ℕ) : ℕ → ℕ → ℕ → State → State
  | 0, _, _, s => s
  | k + 1, d1start, d0start, s =>
    let s := exitDir a stop d1start d0start s
    let d1start := d1start + PDPAGES
    if d1start < stop then exitLoop a stop k d1start d1start s else s

/-- `exit_range`; `none` when an assertion fails. -/
def exitRange (a start stop : ℕ) (s : State) : Option State :=
  if UserRange start stop then
    let start := start / PGSIZE
    let stop := stop / PGSIZE
    some (exitLoop a stop (stop - start) (start / PDPAGES * PDPAGES)
      (start / NPTEENTRY * NPTEENTRY) s)
  else none

/-- `exit_mmap` of the address space `a`, whose segments are `mmapList`. -/
def exitMmap (a : ℕ) (mmapList : List Vma) (s : State) : Option State := do
  let s ← mmapList.foldlM (fun s vma => unmapRange a vma.vmStart vma.vmEnd s) s
  mmapList.foldlM (fun s vma => exitRange a vma.vmStart vma.vmEnd s) s

end Ucore.Paging
