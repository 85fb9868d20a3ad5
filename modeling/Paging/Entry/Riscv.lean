import Paging.Entry
import Paging.MemoryType

/-!
# Entries of RISC-V

The Sv39, Sv48 and Sv57 layout. A valid entry that may be read, written or executed is a leaf at
whatever level it sits; any other valid entry points at a table. T-Head cores use the top bits as
memory attributes, addressed by bit position.
-/

namespace Paging.Riscv

def validBit : Nat := 0

def readBit : Nat := 1

def writeBit : Nat := 2

def executeBit : Nat := 3

def userBit : Nat := 4

def accessedBit : Nat := 6

def dirtyBit : Nat := 7

def cacheableBit : Nat := MemoryType.THead.cacheable.toNat

def pfnField : BitField := ⟨10, 44⟩

/-- The low byte, which holds the standard flags. -/
def flags (raw : Word) : Word := (⟨0, 8⟩ : BitField).get raw

def flagsText (raw : Word) : String :=
  FlagSet.text "PageFlags"
    ["VALID", "READ", "WRITE", "EXECUTE", "USER", "GLOBAL", "ACCESSED", "DIRTY"]
    (flags raw).toNat

def isPresent (raw : Word) : Bool := raw.bit validBit

def isLeaf (raw : Word) : Bool :=
  isPresent raw && (raw.bit readBit || raw.bit writeBit || raw.bit executeBit)

def pfn (raw : Word) : Word := pfnField.get raw

def withPfn (raw pfn : Word) : Word := pfnField.put raw pfn

/-- Makes the attribute bit at position `id` modulo 64 what bit 7 of `id` says. -/
def withMemoryType (raw : Word) (id : UInt8) : Word :=
  raw.withBit (id.toNat % 64) (id.toNat.testBit 7)

/-- The cacheable bit, as the identifier that would store it. -/
def memoryType (raw : Word) : UInt8 :=
  UInt8.ofNat (cacheableBit + 128 * (raw.bit cacheableBit).toNat)

def view (variant : RiscvVariant) (kind : EntryKind) (raw : Word) : EntryView :=
  if isPresent raw then
    let leaf := kind == .page || isLeaf raw
    { present := true
      leaf := leaf
      pfn := pfn raw
      memoryType := if leaf && variant == .thead then some (memoryType raw) else none
      permissions := ⟨raw.bit readBit, raw.bit writeBit, raw.bit executeBit, raw.bit userBit⟩
      accessed := raw.bit accessedBit
      dirty := raw.bit dirtyBit }
  else .absent

/-- The page number and mode of satp; a value without a mode is an address already. -/
def rootFrame (root : Word) : Word :=
  if (⟨60, 4⟩ : BitField).get root == 0 then root >>> 12 else (⟨0, 44⟩ : BitField).get root

end Paging.Riscv
