import Paging.Word
import Paging.Text.Digits

/-!
# Addresses

Physical and virtual addresses are 64-bit words of two kinds that do not mix. Addition and
subtraction wrap. Which bits of a virtual address count is for the geometry to say.
-/

namespace Paging

inductive AddressKind where
  | physical
  | virtual
deriving DecidableEq, Repr

structure Address (kind : AddressKind) where
  word : Word
deriving DecidableEq, Repr

abbrev PhysicalAddress := Address .physical

abbrev VirtualAddress := Address .virtual

def AddressKind.typeName : AddressKind → String
  | .physical => "PhysicalAddress"
  | .virtual => "VirtualAddress"

namespace Address

variable {kind : AddressKind}

def zero : Address kind := ⟨0⟩

def isNull (a : Address kind) : Bool := a.word == 0

def toNat (a : Address kind) : Nat := a.word.toNat

/-- The address `offset` bytes further, modulo `2 ^ 64`. -/
def add (a : Address kind) (offset : Word) : Address kind := ⟨a.word + offset⟩

/-- The distance from `b` up to `a`, modulo `2 ^ 64`. -/
def sub (a b : Address kind) : Word := a.word - b.word

def alignedTo (a : Address kind) (align : Word) : Bool := a.word % align == 0

/-- The last multiple of `align` that is not above the address. -/
def alignedDown (a : Address kind) (align : Word) : Address kind := ⟨a.word - a.word % align⟩

/-- As `alignedTo`, for an alignment that has yet to be checked to be a power of two. -/
def alignedTo? (a : Address kind) (align : Word) : Option Bool :=
  if align.isPowerOfTwo then some (a.alignedTo align) else none

/-- As `alignedDown`, for an alignment that has yet to be checked to be a power of two. -/
def alignedDown? (a : Address kind) (align : Word) : Option (Address kind) :=
  if align.isPowerOfTwo then some (a.alignedDown align) else none

def alignmentMessage : String := "alignment must be a power of two"

def text (a : Address kind) : String := hex a.word

def debugText (a : Address kind) : String := kind.typeName ++ "(" ++ a.text ++ ")"

end Address

end Paging
