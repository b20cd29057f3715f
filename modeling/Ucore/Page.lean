import Mathlib.Data.Int.Notation
import Mathlib.Data.Nat.Notation

/-!
# Page descriptors

`struct Page` of `kern/mm/memlayout.h`, as the physical memory managers of lab2 use it: the
reference counter, the two defined bits of `flags`, and the block size `property` of the head page
of a free block.  The list link `page_link` belongs to the managers that use it.
-/

namespace Ucore

/-- `struct Page`.  Of `flags` only the bits `PG_reserved` and `PG_property` are defined. -/
structure Page where
  ref : ℤ
  reserved : Bool
  propertyBit : Bool
  property : ℕ
  deriving DecidableEq, Repr

namespace Page

/-- `SetPageProperty`. -/
def setPageProperty (p : Page) : Page := { p with propertyBit := true }

/-- `ClearPageProperty`. -/
def clearPageProperty (p : Page) : Page := { p with propertyBit := false }

/-- `set_page_ref`. -/
def setPageRef (p : Page) (val : ℤ) : Page := { p with ref := val }

/-- The assignment `p->property = v`. -/
def setProperty (p : Page) (v : ℕ) : Page := { p with property := v }

/-- The assignment `p->flags = 0`. -/
def clearFlags (p : Page) : Page := { p with reserved := false, propertyBit := false }

end Page

end Ucore
