import Paging.Entry

/-!
# Entries of x86_64

One layout serves every level. Above the last level the page-size bit turns an entry into a
huge-page leaf; its PAT selector then sits at bit 12, which no longer belongs to the frame number,
while in a base page the selector sits at bit 7.
-/

namespace Paging.X86

def presentBit : Nat := 0

def writableBit : Nat := 1

def userBit : Nat := 2

def writeThroughBit : Nat := 3

def cacheDisableBit : Nat := 4

def accessedBit : Nat := 5

def dirtyBit : Nat := 6

def pageSizeBit : Nat := 7

def noExecuteBit : Nat := 63

/-- The PAT selector, which moves out of the way of the page-size bit in a huge page. -/
def patBit (huge : Bool) : Nat := if huge then 12 else 7

def addressField : BitField := ⟨12, 40⟩

/-- The address bits of a huge-page leaf, which begin above its PAT selector. -/
def hugeAddressField : BitField := ⟨13, 39⟩

/-- The bits that are not address: 0 to 11 and 52 to 63. -/
def flags (raw : Word) : Word := raw &&& ~~~addressField.mask

def isPresent (raw : Word) : Bool := raw.bit presentBit

/-- The entry is a huge-page leaf, if it sits above the last level. -/
def isHuge (raw : Word) : Bool := isPresent raw && raw.bit pageSizeBit

/-- The address begins above bit 12: the page-size bit is set above the last level. -/
def isWide (kind : EntryKind) (raw : Word) : Bool := kind == .directory && raw.bit pageSizeBit

def pfn (kind : EntryKind) (raw : Word) : Word :=
  if isWide kind raw then hugeAddressField.get raw <<< 1 else addressField.get raw

def withPfn (kind : EntryKind) (raw pfn : Word) : Word :=
  if isWide kind raw then hugeAddressField.put raw (pfn >>> 1) else addressField.put raw pfn

def tableFrame (raw : Word) : Word := addressField.get raw

def memoryType (huge : Bool) (raw : Word) : UInt8 :=
  UInt8.ofNat <|
    (raw.bit writeThroughBit).toNat + 2 * (raw.bit cacheDisableBit).toNat +
      4 * (raw.bit (patBit huge)).toNat

/-- Selects the PAT slot given by the low three bits of `mt`. -/
def withMemoryType (huge : Bool) (raw : Word) (mt : UInt8) : Word :=
  let raw := raw.withBit writeThroughBit (mt.toNat.testBit 0)
  let raw := Word.withBit raw cacheDisableBit (mt.toNat.testBit 1)
  Word.withBit raw (patBit huge) (mt.toNat.testBit 2)

def view (kind : EntryKind) (raw : Word) : EntryView :=
  if isPresent raw then
    let leaf := kind == .page || raw.bit pageSizeBit
    { present := true
      leaf := leaf
      pfn := pfn kind raw
      memoryType := if leaf then some (memoryType (kind == .directory) raw) else none
      permissions := ⟨true, raw.bit writableBit, !raw.bit noExecuteBit, raw.bit userBit⟩
      accessed := raw.bit accessedBit
      dirty := leaf && raw.bit dirtyBit }
  else .absent

end Paging.X86
