import Paging.Engine

/-!
# Pages

Whole pages are copied out of physical memory and back into it. Pages are counted in the page size
of the geometry.
-/

namespace Paging.Engine

/-- Where a page begins, for a buffer of `count` bytes that is to hold it. -/
def pageAddress (e : Engine) (pfn : Word) (count : Nat) : Except Error PhysicalAddress :=
  if count ≠ e.pageSize then .error (.bufferSize e.pageSize count)
  else
    match pfn.mul? (UInt64.ofNat e.pageSize) with
    | some address => .ok ⟨address⟩
    | none => .error (.physicalAccess ⟨~~~(0 : Word)⟩)

/-- Reads a page into a buffer of `count` bytes, which must be one page long. -/
def readPage (e : Engine) (pfn : Word) (count : Nat) : Op (List UInt8) := do
  let address ← ExceptT.mk (pure (e.pageAddress pfn count))
  Op.readBytes address count

/-- Writes a page from a buffer, which must be one page long. -/
def writePage (e : Engine) (pfn : Word) (bytes : List UInt8) : Op Unit := do
  let address ← ExceptT.mk (pure (e.pageAddress pfn bytes.length))
  Op.writeBytes address bytes

end Paging.Engine
