import Paging.Geometry

/-!
# Geometry from control registers

Every architecture keeps its layout in a control register: CR4 on x86_64, TCR_EL1 on AArch64 (for
the lower half of the address space) and satp on RISC-V. A value without a meaning is refused.
-/

namespace Paging.Geometry

/-- CR4 must enable physical address extension; it chooses between four and five levels. -/
def ofCr4 (cr4 : Word) : Except Error Geometry :=
  if !cr4.bit 5 then .error (.unrecognizedConfiguration cr4)
  else if cr4.bit 12 then .ok fiveLevel
  else .ok fourLevel

/-- A page size of AArch64 and the index width of a full table of that size. -/
structure Granule where
  offsetBits : Nat
  stride : Nat
deriving DecidableEq, Repr

/-- The granule that field TG0 of TCR_EL1 selects. -/
def granule? (tcr : Word) : Option Granule :=
  match ((⟨14, 2⟩ : BitField).get tcr).toNat with
  | 0 => some ⟨12, 9⟩
  | 1 => some ⟨16, 13⟩
  | 2 => some ⟨14, 11⟩
  | _ => none

/-- Address bits that field T0SZ of TCR_EL1 leaves to be mapped. -/
def inputBits (tcr : Word) : Nat := 64 - ((⟨0, 6⟩ : BitField).get tcr).toNat

/-- Index widths, root first, when `remaining` bits are shared among tables of `stride` bits: every
level below the root is full and the root takes what is left. -/
def splitWidths (remaining stride : Nat) : List Nat :=
  let count := (remaining + stride - 1) / stride
  (remaining - (count - 1) * stride) :: List.replicate (count - 1) stride

def ofTcr (tcr : Word) : Except Error Geometry :=
  let refused := .error (.unrecognizedConfiguration tcr)
  match granule? tcr with
  | none => refused
  | some granule =>
    let bits := inputBits tcr
    if 52 < bits ∨ bits ≤ granule.offsetBits then refused
    else
      match ofWidths granule.offsetBits
          (splitWidths (bits - granule.offsetBits) granule.stride) with
      | .ok g => .ok g
      | .error _ => refused

def ofSatp (satp : Word) : Except Error Geometry :=
  match ((⟨60, 4⟩ : BitField).get satp).toNat with
  | 8 => .ok threeLevel
  | 9 => .ok fourLevel
  | 10 => .ok fiveLevel
  | _ => .error (.unrecognizedConfiguration satp)

def ofControl (arch : Architecture) (value : Word) : Except Error Geometry :=
  match arch with
  | .x86_64 => ofCr4 value
  | .aarch64 => ofTcr value
  | .riscv64 _ => ofSatp value

end Paging.Geometry
