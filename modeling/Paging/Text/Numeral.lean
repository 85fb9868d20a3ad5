import Paging.Text.Digits

/-!
# Numbers as users write them

An unsigned number is decimal, or hexadecimal behind `0x`; a plus sign may stand before the digits
and underscores may stand anywhere after `0x`. Numbers that need more than 64 bits are refused.
-/

namespace Paging.Numeral

/-- Digits with an optional plus sign before them. -/
def unsigned? (base : Nat) : List Char → Option Nat
  | '+' :: cs => Digits.value? base cs
  | cs => Digits.value? base cs

/-- Digits with an optional sign before them. -/
def signed? (base : Nat) : List Char → Option Int
  | '-' :: cs => (Digits.value? base cs).map fun n => -(n : Int)
  | cs => (unsigned? base cs).map fun n => (n : Int)

/-- The number, unless it needs more than 64 bits. -/
def toWord? (n : Nat) : Option UInt64 := if n < 2 ^ 64 then some (UInt64.ofNat n) else none

def wordOfChars? : List Char → Option UInt64
  | '0' :: 'x' :: cs => (unsigned? 16 (cs.filter (· != '_'))).bind toWord?
  | cs => (unsigned? 10 cs).bind toWord?

/-- Reads an address, a frame number or a register value. -/
def word? (text : String) : Option UInt64 := wordOfChars? text.toList

/-- Reads a bit number: decimal, read as a signed 64-bit number and then held to 32 bits. -/
def bitNumber? (text : String) : Option UInt32 :=
  (signed? 10 text.toList).bind fun n =>
    if 0 ≤ n ∧ n < 2 ^ 32 then some (UInt32.ofNat n.toNat) else none

end Paging.Numeral
