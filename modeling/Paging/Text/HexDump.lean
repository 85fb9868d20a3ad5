import Paging.Text.Digits
import Paging.Word

/-!
# Hex dumps

Bytes in rows of sixteen, each behind the address of its first byte. `flatMap_rows` says that the
rows hold the bytes in order.
-/

namespace Paging.HexDump

structure Row where
  address : Word
  bytes : List UInt8
deriving DecidableEq, Repr

/-- Bytes in a full row. -/
def rowSize : Nat := 16

def rows (address : Word) (bytes : List UInt8) : List Row :=
  if bytes.isEmpty then []
  else
    ⟨address, bytes.take rowSize⟩ ::
      rows (address + UInt64.ofNat rowSize) (bytes.drop rowSize)
termination_by bytes.length
decreasing_by
  rename_i h
  have hpos : 0 < bytes.length := List.length_pos_iff.mpr (by simpa using h)
  simp only [rowSize, List.length_drop]
  omega

/-- An address in at least twelve characters and the bytes of the row. -/
def Row.text (r : Row) : String :=
  String.ofList (Hex.padded 12 r.address.toNat) ++ ": " ++
    " ".intercalate (r.bytes.map fun b => String.ofList (Hex.byte b))

theorem flatMap_rows (address : Word) (bytes : List UInt8) :
    (rows address bytes).flatMap Row.bytes = bytes := by
  fun_induction rows address bytes with
  | case1 _ bytes h => simp_all
  | case2 _ bytes h ih => simp [ih]

end Paging.HexDump
