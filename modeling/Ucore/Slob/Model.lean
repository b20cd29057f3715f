import Mathlib.Data.BitVec
import Mathlib.Logic.Function.Basic
import Ucore.Lib.Circle
import Ucore.Lib.Fallible

/-!
# The heap of lab8 (`lab8/kern/mm/kmalloc.c`)

The unit of the heap is a `slob_t`, 16 bytes.  Addresses are counted in units, so that the page with
number `p` begins at `256 * p`, and a block is the address of its first unit, whose header has the
number of its units and, while it is free, the next free block.  `units` and `next` are these fields
at every address, whether a block begins there or not.

The page allocator answers a request with a page or with `NULL`; the calls take the pages it has for
them as an argument.  The third argument of `slob_alloc`, `align`, is 0 in every call, and so is
`delta`.  `turns` bounds the number of turns of a loop, and a loop that needs more is `endless`.
-/

namespace Ucore.Slob

open Function CircularList Fallible

def PAGE_SIZE : ℕ := 4096

/-- `sizeof(slob_t)`. -/
def SLOB_UNIT : ℕ := 16

/-- Units in a page. -/
def PAGE_UNITS : ℕ := 256

/-- `sizeof(bigblock_t)`. -/
def sizeofBigblock : ℕ := 24

/-- `SLOB_UNITS`. -/
def slobUnits (size : ℕ) : ℕ := (size + SLOB_UNIT - 1) / SLOB_UNIT

/-- Where the heap stops: the assertion of `slob_alloc`, and loops that do not end. -/
inductive Panic
  | slobAlloc
  | endless
  deriving DecidableEq, Repr

/-- The fields of the headers, and `slobfree`.  `pages` has the pages that the heap has got from the
page allocator. -/
structure Heap where
  units : ℕ → ℕ
  next : ℕ → ℕ
  slobfree : ℕ
  pages : List ℕ

namespace Heap

def setUnits (a n : ℕ) (h : Heap) : Heap := { h with units := update h.units a n }

def setNext (a b : ℕ) (h : Heap) : Heap := { h with next := update h.next a b }

def setSlobfree (a : ℕ) (h : Heap) : Heap := { h with slobfree := a }

end Heap

/-! ### `slob_free` -/

/-- The loop of `slob_free` that finds the reinsertion point. -/
def findPoint (h : Heap) (b : ℕ) (turns : ℕ) : Option ℕ :=
  walk h.next (fun cur => Between h.next b cur) turns h.slobfree

/-- Put the block `b` behind `cur`, and make one block of it and its successor if they touch. -/
def joinNext (cur b : ℕ) (h : Heap) : Heap :=
  let next := h.next cur
  if b + h.units b = next then
    (h.setUnits b (h.units b + h.units next)).setNext b (h.next next)
  else h.setNext b next

/-- Link `cur` to the block `b`, and make one block of the two if they touch. -/
def joinPrev (cur b : ℕ) (h : Heap) : Heap :=
  if cur + h.units cur = b then
    (h.setUnits cur (h.units cur + h.units b)).setNext cur (h.next b)
  else h.setNext cur b

/-- `slob_free`. -/
def slobFree (turns b size : ℕ) (h : Heap) : Except Panic Heap :=
  if b = 0 then .ok h
  else
    let h := if size ≠ 0 then h.setUnits b (slobUnits size) else h
    match findPoint h b turns with
    | none => .error .endless
    | some cur => .ok ((joinPrev cur b (joinNext cur b h)).setSlobfree cur)

/-! ### `slob_alloc` -/

/-- Take `units` units from the front of the block `cur`, which follows `prev`. -/
def take (prev cur units : ℕ) (h : Heap) : Heap :=
  let h :=
    if h.units cur = units then h.setNext prev (h.next cur)
    else
      let h := h.setNext prev (cur + units)
      let h := h.setUnits (h.next prev) (h.units cur - units)
      let h := h.setNext (h.next prev) (h.next cur)
      h.setUnits cur units
  h.setSlobfree prev

/-- The loop of `slob_alloc`. -/
def allocLoop (turns size units : ℕ) : ℕ → List ℕ → ℕ → ℕ → Heap → Except Panic (Option ℕ × Heap)
  | 0, _, _, _, _ => .error .endless
  | k + 1, pages, prev, cur, h =>
    if units ≤ h.units cur then .ok (some cur, take prev cur units h)
    else if cur = h.slobfree then
      if size = PAGE_SIZE then .ok (none, h)
      else
        match pages with
        | [] => .ok (none, h)
        | page :: pages => do
          let h ← slobFree turns (page * PAGE_UNITS) PAGE_SIZE { h with pages := page :: h.pages }
          allocLoop turns size units k pages h.slobfree (h.next h.slobfree) h
    else allocLoop turns size units k pages cur (h.next cur) h

/-- `slob_alloc(size, 0, 0)`. -/
def slobAlloc (turns : ℕ) (pages : List ℕ) (size : ℕ) (h : Heap) : Except Panic (Option ℕ × Heap) := do
  require (size + SLOB_UNIT < PAGE_SIZE) .slobAlloc
  allocLoop turns size (slobUnits size) turns pages h.slobfree (h.next h.slobfree) h

/-! ### `kmalloc` -/

/-- A block that a client has. -/
structure Block where
  addr : ℕ
  units : ℕ
  deriving DecidableEq, Repr

/-- The units of a block. -/
def Block.has (b : Block) (x : ℕ) : Prop := b.addr ≤ x ∧ x < b.addr + b.units

/-- The heap, and the blocks that are allocated. -/
structure State where
  heap : Heap
  live : List Block

/-- `bigblock_t`, the header of an allocation of `2 ^ order` pages from the page `pages` on.  `addr` is
where the header is. -/
structure Bigblock where
  addr : ℕ
  order : ℕ
  pages : ℕ
  deriving DecidableEq, Repr

/-- The heap with the list `bigblocks`.  The header of a `bigblock_t` is one of the live blocks. -/
structure Kheap extends State where
  bigblocks : List Bigblock

/-- The block of `slob_alloc` that has the header. -/
def Bigblock.header (bb : Bigblock) : Block := ⟨bb.addr, slobUnits sizeofBigblock⟩

/-- `find_order`; `size >>= 1` halves a positive number. -/
def findOrder (size : ℤ) : ℕ := if 4096 < size then findOrder (size / 2) + 1 else 0
termination_by size.toNat
decreasing_by omega

/-- A `size_t` as the argument of a function that takes an `int`. -/
def toInt (size : BitVec 64) : ℤ := (size.setWidth 32).toInt

/-- The assignments to `bb->order` and `bb->pages`, which overwrite the header of the block. -/
def setBigblock (bb order pages : ℕ) (h : Heap) : Heap :=
  (h.setUnits bb order).setNext bb (pages * PAGE_UNITS)

/-- A block of `slob_alloc` for a client. -/
def Kheap.grant (k : Kheap) (m : ℕ) (h : Heap) : Kheap :=
  { k with heap := h, live := ⟨m, h.units m⟩ :: k.live }

/-- `__kmalloc`, and with it `kmalloc`.  The page allocator has `pages` for the heap and answers the
request for `1 << order` pages with `run`. -/
def kmalloc (turns : ℕ) (pages : List ℕ) (run : Option ℕ) (size : BitVec 64) (k : Kheap) :
    Except Panic (Option ℕ × Kheap) := do
  if size.toNat < PAGE_SIZE - SLOB_UNIT then
    match ← slobAlloc turns pages (size.toNat + SLOB_UNIT) k.heap with
    | (some m, h) => return (some (m + 1), k.grant m h)
    | (none, h) => return (none, { k with heap := h })
  else
    match ← slobAlloc turns pages sizeofBigblock k.heap with
    | (none, h) => return (none, { k with heap := h })
    | (some bb, h) =>
      let order := findOrder (toInt size)
      match run with
      | some first =>
        return (some (first * PAGE_UNITS),
          { k.grant bb h with
            heap := setBigblock bb order first h
            bigblocks := ⟨bb, order, first⟩ :: k.bigblocks })
      | none =>
        let h ← slobFree turns bb sizeofBigblock (setBigblock bb order 0 h)
        return (none, { k with heap := h })

/-! ### `kfree` -/

/-- The big block that `kfree` finds for the pointer `block`. -/
def Kheap.findBigblock (k : Kheap) (block : ℕ) : Option Bigblock :=
  if block % PAGE_UNITS = 0 then k.bigblocks.find? fun bb => bb.pages * PAGE_UNITS = block else none

/-- `kfree`.  The pages of a big block go back to the page allocator. -/
def kfree (turns block : ℕ) (k : Kheap) : Except Panic Kheap :=
  if block = 0 then .ok k
  else
    match k.findBigblock block with
    | some bb => do
      let h ← slobFree turns bb.addr sizeofBigblock k.heap
      return ⟨⟨h, k.live.erase bb.header⟩, k.bigblocks.erase bb⟩
    | none => do
      let h ← slobFree turns (block - 1) 0 k.heap
      return { k with heap := h, live := k.live.erase ⟨block - 1, k.heap.units (block - 1)⟩ }

end Ucore.Slob
