import Mathlib.Algebra.GroupWithZero.Nat
import Ucore.ListEntry
import Ucore.Page

/-!
# The list-based page allocators (`lab2/kern/mm`: `default_pmm.c`, `best_fit_pmm.c`, `slub_pmm.c`)

Three managers keep the free blocks on one circular list `free_list`, threaded through the
`page_link` of the head page of each block, in address order.  They differ in the search of
`alloc_pages` (first fit, best fit) and in the insertion: the SLUB page layer inserts with
`page_insert_block`, the other two with a loop of their own.

Pages are named by their index in `pages[]`, so `base < page` and `base + n` compare and add
indices.  The counters `property` and `nr_free` are `unsigned int`.  An operation returns `none`
when an assertion fails or when a traversal does not come back to the list head: a list has no more
entries than there are descriptors, `npage`, so a traversal of more turns goes round for ever.
-/

namespace Ucore.FreeList

open LinkedRing

/-- `free_area` together with the array `pages[0..npage)`. -/
structure FreeArea where
  freeList : Links (Option ℕ)
  nrFree : ℕ
  page : ℕ → Page
  npage : ℕ

/-- Conversion to `unsigned int`. -/
def u32 (x : ℕ) : ℕ := x % 2 ^ 32

/-- An assignment to the fields of page `p`. -/
def FreeArea.modifyPage (s : FreeArea) (p : ℕ) (f : Page → Page) : FreeArea :=
  { s with page := Function.update s.page p (f (s.page p)) }

/-- The loops over the `n` pages from `p` on, which assert `check` of each page and assign to it. -/
def eachPage (check : Page → Bool) (f : Page → Page) : ℕ → ℕ → FreeArea → Option FreeArea
  | 0, _, s => some s
  | n + 1, p, s =>
    if check (s.page p) then eachPage check f n (p + 1) (s.modifyPage p f) else none

/-- `base->property = n; SetPageProperty(base)`. -/
def setHead (base n : ℕ) (s : FreeArea) : FreeArea :=
  s.modifyPage base fun pg => (pg.setProperty (u32 n)).setPageProperty

/-- `default_init`, `best_fit_init` and `page_area_init`. -/
def areaInit (s : FreeArea) : FreeArea :=
  { s with freeList := listInit none s.freeList, nrFree := 0 }

/-! ### Insertion -/

/-- The insertion loop of `default_pmm.c` and `best_fit_pmm.c`.  Only the branch that inserts before
a later page breaks; after an insertion at the end of the list the loop goes on from `le`. -/
def insertLoop (base : ℕ) : ℕ → Option ℕ → Links (Option ℕ) → Option (Links (Option ℕ))
  | 0, _, _ => none
  | k + 1, le, L =>
    match listNext L le with
    | none => some L
    | some page =>
      if base < page then some (listAddBefore (some page) (some base) L)
      else if listNext L (some page) = none then
        insertLoop base k (some page) (listAdd (some page) (some base) L)
      else insertLoop base k (some page) L

/-- The insertion into the free list in `init_memmap` and `free_pages` of these two managers. -/
def insertBlock (base : ℕ) (s : FreeArea) : Option FreeArea :=
  if listEmpty s.freeList none then
    some { s with freeList := listAdd none (some base) s.freeList }
  else
    (insertLoop base (s.npage + 2) none s.freeList).map fun L => { s with freeList := L }

/-- `page_insert_block` of `slub_pmm.c`: the entry before which `base` goes is the first with a
later page, or the list head at the end of the loop. -/
def pageInsertBlock (base : ℕ) (s : FreeArea) : Option FreeArea :=
  (whileNext s.freeList (fun le p => if base < p then (some p, true) else (le, false))
    (s.npage + 1) none none).map fun le =>
      { s with freeList := listAddBefore le (some base) s.freeList }

/-- `list_init(&(base->page_link))` followed by `page_insert_block(base)`. -/
def slubInsert (base : ℕ) (s : FreeArea) : Option FreeArea :=
  pageInsertBlock base { s with freeList := listInit (some base) s.freeList }

/-! ### Merging -/

/-- `p->property += q->property; ClearPageProperty(q); list_del(&(q->page_link))`. -/
def absorb (p q : ℕ) (s : FreeArea) : FreeArea :=
  let s := s.modifyPage p fun pg => pg.setProperty (u32 (pg.property + (s.page q).property))
  let s := s.modifyPage q Page.clearPageProperty
  { s with freeList := listDel (some q) s.freeList }

/-- Join the block at `base` to the block before it.  Returns the head of the joined block. -/
def mergePrev (base : ℕ) (s : FreeArea) : ℕ × FreeArea :=
  match listPrev s.freeList (some base) with
  | none => (base, s)
  | some p => if p + (s.page p).property = base then (p, absorb p base s) else (base, s)

/-- Join the block after it to the block at `base`. -/
def mergeNext (base : ℕ) (s : FreeArea) : FreeArea :=
  match listNext s.freeList (some base) with
  | none => s
  | some p => if base + (s.page base).property = p then absorb base p s else s

/-- `page_try_merge`, also the last part of `default_free_pages` and `best_fit_free_pages`. -/
def pageTryMerge (base : ℕ) (s : FreeArea) : FreeArea :=
  let (base, s) := mergePrev base s
  mergeNext base s

/-! ### The common shape of `init_memmap` and `free_pages` -/

/-- Check and reset the `n` pages, mark `base` as head of a block of `n`, count it, insert it. -/
def addRange (check : Page → Bool) (reset : Page → Page) (insert : ℕ → FreeArea → Option FreeArea)
    (base n : ℕ) (s : FreeArea) : Option FreeArea :=
  if n > 0 then do
    let s ← eachPage check reset n base s
    let s := setHead base n s
    insert base { s with nrFree := u32 (s.nrFree + n) }
  else none

/-- `assert(!PageReserved(p) && !PageProperty(p))`. -/
def inUse (pg : Page) : Bool := !pg.reserved && !pg.propertyBit

/-! ### First fit -/

/-- `default_init_memmap`. -/
def defaultInitMemmap (base n : ℕ) (s : FreeArea) : Option FreeArea :=
  addRange Page.reserved (fun pg => (pg.clearFlags.setProperty 0).setPageRef 0) insertBlock base n s

/-- The part of `default_alloc_pages` and `best_fit_alloc_pages` after the search: take `n` pages
from the block at `page`, the remainder of the block goes where the block was. -/
def takeFrom (n page : ℕ) (s : FreeArea) : FreeArea :=
  let prev := listPrev s.freeList (some page)
  let s := { s with freeList := listDel (some page) s.freeList }
  let s :=
    if (s.page page).property > n then
      let p := page + n
      let s := s.modifyPage p fun pg =>
        (pg.setProperty ((s.page page).property - n)).setPageProperty
      { s with freeList := listAdd prev (some p) s.freeList }
    else s
  let s := { s with nrFree := s.nrFree - n }
  s.modifyPage page Page.clearPageProperty

/-- The search of `default_alloc_pages`. -/
def firstFit (n : ℕ) (s : FreeArea) : Option (Option ℕ) :=
  whileNext s.freeList (fun page p => if (s.page p).property ≥ n then (some p, true) else (page, false))
    (s.npage + 1) none none

/-- `default_alloc_pages`: the page returned (`none` for `NULL`) and the new state. -/
def defaultAllocPages (n : ℕ) (s : FreeArea) : Option (Option ℕ × FreeArea) :=
  if n > 0 then
    if n > s.nrFree then some (none, s) else
    (firstFit n s).map fun page =>
      match page with
      | none => (none, s)
      | some page => (some page, takeFrom n page s)
  else none

/-- `default_free_pages`. -/
def defaultFreePages (base n : ℕ) (s : FreeArea) : Option FreeArea :=
  (addRange inUse (fun pg => pg.clearFlags.setPageRef 0) insertBlock base n s).map
    (pageTryMerge base)

/-! ### Best fit -/

/-- `best_fit_init_memmap`; unlike `default_init_memmap` it keeps the old `property` fields. -/
def bestFitInitMemmap (base n : ℕ) (s : FreeArea) : Option FreeArea :=
  addRange Page.reserved (fun pg => pg.clearFlags.setPageRef 0) insertBlock base n s

/-- The search of `best_fit_alloc_pages`: the local variables are `page` and `min_size`. -/
def bestFit (n : ℕ) (s : FreeArea) : Option (Option ℕ × ℕ) :=
  whileNext s.freeList
    (fun (page, minSize) p =>
      if (s.page p).property ≥ n ∧ (s.page p).property < minSize then
        ((some p, (s.page p).property), false)
      else ((page, minSize), false))
    (s.npage + 1) none (none, u32 (s.nrFree + 1))

/-- `best_fit_alloc_pages`. -/
def bestFitAllocPages (n : ℕ) (s : FreeArea) : Option (Option ℕ × FreeArea) :=
  if n > 0 then
    if n > s.nrFree then some (none, s) else
    (bestFit n s).map fun (page, _) =>
      match page with
      | none => (none, s)
      | some page => (some page, takeFrom n page s)
  else none

/-- `best_fit_free_pages`. -/
def bestFitFreePages (base n : ℕ) (s : FreeArea) : Option FreeArea :=
  (addRange inUse (fun pg => pg.clearFlags.setPageRef 0) insertBlock base n s).map
    (pageTryMerge base)

/-! ### The SLUB page layer -/

/-- `slub_page_init_memmap`. -/
def slubPageInitMemmap (base n : ℕ) (s : FreeArea) : Option FreeArea :=
  (addRange Page.reserved (fun pg => (pg.clearFlags.setProperty 0).setPageRef 0) slubInsert
    base n s).map (pageTryMerge base)

/-- The search of `slub_page_alloc`: the local variables are `best` and `best_size`; `none` once the
assertion `PageProperty(p)` has failed. -/
def slubBest (n : ℕ) (s : FreeArea) : Option (Option (Option ℕ × ℕ)) :=
  whileNext s.freeList
    (fun acc p =>
      if (s.page p).propertyBit then
        (acc.map fun (best, bestSize) =>
          if (s.page p).property ≥ n ∧ (best = none ∨ (s.page p).property < bestSize) then
            (some p, (s.page p).property)
          else (best, bestSize), false)
      else (none, true))
    (s.npage + 1) none (some (none, 0))

/-- The block of `slub_page_alloc` that puts the remainder of the best block back. -/
def slubRemain (n best bestSize : ℕ) (s : FreeArea) : Option FreeArea :=
  if bestSize > n then
    slubInsert (best + n) (s.modifyPage (best + n) fun pg =>
      (pg.setProperty (bestSize - n)).setPageProperty)
  else some s

/-- `slub_page_alloc`. -/
def slubPageAlloc (n : ℕ) (s : FreeArea) : Option (Option ℕ × FreeArea) :=
  if n > 0 then
    if n > s.nrFree then some (none, s) else do
    let (best, bestSize) ← (← slubBest n s)
    match best with
    | none => some (none, s)
    | some best =>
      let s := { s with freeList := listDel (some best) s.freeList }
      let s ← slubRemain n best bestSize s
      let s ← eachPage (fun _ => true) (fun pg => (pg.setProperty 0).clearPageProperty) n best s
      some (some best, { s with nrFree := s.nrFree - n })
  else none

/-- `slub_page_free`. -/
def slubPageFree (base n : ℕ) (s : FreeArea) : Option FreeArea :=
  (addRange inUse (fun pg => (pg.clearFlags.setProperty 0).setPageRef 0) slubInsert base n s).map
    (pageTryMerge base)

/-! ### The managers -/

/-- `struct pmm_manager`. -/
structure PmmManager where
  init : FreeArea → FreeArea
  initMemmap : ℕ → ℕ → FreeArea → Option FreeArea
  allocPages : ℕ → FreeArea → Option (Option ℕ × FreeArea)
  freePages : ℕ → ℕ → FreeArea → Option FreeArea
  nrFreePages : FreeArea → ℕ

/-- The managers that keep one sorted list. -/
inductive ListManager
  | default
  | bestFit
  | slub
  deriving DecidableEq, Repr

/-- `default_pmm_manager`, `best_fit_pmm_manager` and the page layer of `slub_pmm_manager`. -/
def ListManager.pmm : ListManager → PmmManager
  | default => ⟨areaInit, defaultInitMemmap, defaultAllocPages, defaultFreePages, FreeArea.nrFree⟩
  | bestFit => ⟨areaInit, bestFitInitMemmap, bestFitAllocPages, bestFitFreePages, FreeArea.nrFree⟩
  | slub => ⟨areaInit, slubPageInitMemmap, slubPageAlloc, slubPageFree, FreeArea.nrFree⟩

end Ucore.FreeList
