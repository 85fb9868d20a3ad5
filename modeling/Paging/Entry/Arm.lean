import Paging.Entry

/-!
# Descriptors of AArch64

Stage-1 page-table descriptors. The two low bits give the type: above the last level `11` is
a table and `01` a block, which maps memory itself; at the last level only `11` is a page.
-/

namespace Paging.Arm

def validBit : Nat := 0

def tableBit : Nat := 1

def userBit : Nat := 6

def readOnlyBit : Nat := 7

def accessedBit : Nat := 10

def notGlobalBit : Nat := 11

def privilegedExecuteNeverBit : Nat := 53

def executeNeverBit : Nat := 54

/-- A bit that hardware leaves to software, which marks written pages with it. -/
def dirtyBit : Nat := 55

def addressField : BitField := ⟨12, 36⟩

/-- The MAIR slot that a leaf selects. -/
def attributeField : BitField := ⟨2, 3⟩

def isPresent (kind : EntryKind) (raw : Word) : Bool :=
  raw.bit validBit && (kind == .directory || raw.bit tableBit)

/-- The descriptor is a block, if it sits above the last level. -/
def isBlock (raw : Word) : Bool := raw.bit validBit && !raw.bit tableBit

def pfn (raw : Word) : Word := addressField.get raw

def withPfn (raw pfn : Word) : Word := addressField.put raw pfn

def memoryType (raw : Word) : UInt8 := (attributeField.get raw).toUInt8

/-- Selects the MAIR slot given by the low three bits of `mt`. -/
def withMemoryType (raw : Word) (mt : UInt8) : Word := attributeField.put raw mt.toUInt64

def view (kind : EntryKind) (raw : Word) : EntryView :=
  if isPresent kind raw then
    let leaf := kind == .page || isBlock raw
    { present := true
      leaf := leaf
      pfn := pfn raw
      memoryType := if leaf then some (memoryType raw) else none
      permissions :=
        ⟨true, !raw.bit readOnlyBit, !raw.bit executeNeverBit, raw.bit userBit⟩
      accessed := raw.bit accessedBit
      dirty := leaf && raw.bit dirtyBit }
  else .absent

end Paging.Arm
