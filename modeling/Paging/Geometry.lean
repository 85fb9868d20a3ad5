import Paging.Architecture
import Paging.Error

/-!
# Geometry

Which levels exist and how many address bits each of them consumes. A table at a present level has
`2 ^ width` entries; `shift` is the lowest address bit a level consumes, so that one entry there
maps `2 ^ shift` bytes. `isUsable` says which layouts describe a hierarchy, and `ofWidths` accepts
no other.
-/

namespace Paging

structure Geometry where
  /-- Address bits below the last level: a base page has `2 ^ offsetBits` bytes. -/
  offsetBits : Nat
  /-- Index bits of every level that exists. -/
  widths : PerLevel (Option Nat)
deriving DecidableEq, Repr

namespace Geometry

def width? (g : Geometry) (l : Level) : Option Nat := g.widths.get l

def isPresent (g : Geometry) (l : Level) : Bool := (g.width? l).isSome

/-- Index bits of a level, none where it does not exist. -/
def width (g : Geometry) (l : Level) : Nat := (g.width? l).getD 0

def levels (g : Geometry) : List Level := Level.all.filter g.isPresent

/-- The lowest address bit that indexes the table at a level. -/
def shift (g : Geometry) (l : Level) : Nat :=
  g.offsetBits + (l.below.map g.width).foldr (· + ·) 0

/-- How many address bits index tables or are kept as page offset. -/
def virtualBits (g : Geometry) : Nat :=
  g.offsetBits + (Level.all.map g.width).foldr (· + ·) 0

/-- The part of an address that indexes the table at a level; zero if the level does not exist. -/
def index (g : Geometry) (vaddr : VirtualAddress) (l : Level) : Nat :=
  vaddr.toNat / 2 ^ g.shift l % 2 ^ g.width l

/-- Bytes mapped by one leaf entry at a level; zero when that needs more than 64 bits. -/
def regionSize (g : Geometry) (l : Level) : Word := UInt64.ofNat (2 ^ g.shift l)

def pageSize (g : Geometry) : Nat := 2 ^ g.offsetBits

/-- Entries sit at the last level, or above it. -/
def kind (l : Level) : EntryKind := if l = Level.last then .page else .directory

/-- Root and last level exist, widths and page size are in range and 64 address bits suffice. -/
def isUsable (g : Geometry) : Bool :=
  4 ≤ g.offsetBits && g.offsetBits ≤ 21 && g.isPresent .pgd && g.isPresent .pte &&
    (g.widths.toList.all fun w => w.all fun w => 1 ≤ w && w ≤ 16) && g.virtualBits ≤ 64

/-- The level slots that a hierarchy of the given depth uses, root first. -/
def slots? : Nat → Option (List Level)
  | 2 => some [.pgd, .pte]
  | 3 => some [.pgd, .pmd, .pte]
  | 4 => some [.pgd, .pud, .pmd, .pte]
  | 5 => some Level.all
  | _ => none

/-- The layout with the given widths at the given levels and no other level. -/
def assign (offsetBits : Nat) (slots : List Level) (widths : List Nat) : Geometry :=
  ⟨offsetBits, (slots.zip widths).foldl (fun v (l, w) => v.set l (some w)) (.all none)⟩

/-- The layout whose levels have the given widths, root first. -/
def ofWidths (offsetBits : Nat) (widths : List Nat) : Except Error Geometry :=
  match slots? widths.length with
  | none => .error .invalidGeometry
  | some slots =>
    let g := assign offsetBits slots widths
    if g.isUsable then .ok g else .error .invalidGeometry

/-- Three levels of nine bits over 4 KiB pages: 39-bit addresses. -/
def threeLevel : Geometry := ⟨12, ⟨some 9, none, none, some 9, some 9⟩⟩

/-- Four levels of nine bits over 4 KiB pages: 48-bit addresses. -/
def fourLevel : Geometry := ⟨12, ⟨some 9, none, some 9, some 9, some 9⟩⟩

/-- Five levels of nine bits over 4 KiB pages: 57-bit addresses. -/
def fiveLevel : Geometry := ⟨12, ⟨some 9, some 9, some 9, some 9, some 9⟩⟩

/-- AArch64 with 16 KiB pages and 48-bit addresses. -/
def granule16 : Geometry := ⟨14, ⟨some 1, none, some 11, some 11, some 11⟩⟩

/-- AArch64 with 64 KiB pages and 48-bit addresses. -/
def granule64 : Geometry := ⟨16, ⟨some 6, none, none, some 13, some 13⟩⟩

def usual : Architecture → Geometry
  | .x86_64 => fourLevel
  | .aarch64 => fourLevel
  | .riscv64 _ => threeLevel

end Geometry

inductive NamedGeometry where
  | x86FourLevel
  | x86FiveLevel
  | arm4k39
  | arm4k48
  | arm16k
  | arm64k
  | sv39
  | sv48
  | sv57
deriving DecidableEq, Repr

def NamedGeometry.layout : NamedGeometry → Geometry
  | x86FourLevel | arm4k48 | sv48 => .fourLevel
  | x86FiveLevel | sv57 => .fiveLevel
  | arm4k39 | sv39 => .threeLevel
  | arm16k => .granule16
  | arm64k => .granule64

end Paging
