import Paging.Architecture
import Paging.Word
import Paging.Text.Quoted

/-!
# Entries

The architecture-neutral view of one raw entry (`EntryView`) and partial changes to one
(`EntryPatch`). A patch names bits to set, bits to clear and perhaps a frame number; a bit is never
both set and cleared by the builders, and the later of two requests for a bit wins.
-/

namespace Paging

/-- Bytes in one raw entry, on every architecture. -/
def entrySize : Nat := 8

/-- Entries count memory in frames of `2 ^ frameShift` bytes, whatever the page size. -/
def frameShift : Nat := 12

structure Permissions where
  read : Bool
  write : Bool
  execute : Bool
  user : Bool
deriving DecidableEq, Repr

namespace Permissions

def none : Permissions := ⟨false, false, false, false⟩

def bits (p : Permissions) : Nat :=
  p.read.toNat + 2 * p.write.toNat + 4 * p.execute.toNat + 8 * p.user.toNat

def debugText (p : Permissions) : String :=
  FlagSet.text "Permissions" ["READ", "WRITE", "EXECUTE", "USER"] p.bits

end Permissions

structure EntryView where
  present : Bool
  /-- The entry maps memory itself instead of pointing at another table. -/
  leaf : Bool
  pfn : Word
  /-- The memory type of a leaf, where the architecture keeps one in the entry. -/
  memoryType : Option UInt8
  permissions : Permissions
  accessed : Bool
  dirty : Bool
deriving DecidableEq, Repr

namespace EntryView

/-- The view of every entry that is not present. -/
def absent : EntryView := ⟨false, false, 0, none, .none, false, false⟩

/-- The entry ends a walk above the last level. -/
def isHuge (v : EntryView) (kind : EntryKind) : Bool :=
  v.present && v.leaf && kind == .directory

end EntryView

structure EntryPatch where
  set : Word
  clear : Word
  pfn : Option Word
deriving DecidableEq, Repr

namespace EntryPatch

def empty : EntryPatch := ⟨0, 0, none⟩

def replace (raw : Word) : EntryPatch := ⟨raw, ~~~(0 : Word), none⟩

/-- Also sets a bit, counted modulo 64. -/
def setBit (p : EntryPatch) (b : UInt32) : EntryPatch :=
  let i := b.toNat % 64
  { p with set := p.set.withBit i true, clear := p.clear.withBit i false }

/-- Also clears a bit, counted modulo 64. -/
def clearBit (p : EntryPatch) (b : UInt32) : EntryPatch :=
  let i := b.toNat % 64
  { p with set := p.set.withBit i false, clear := p.clear.withBit i true }

def withPfn (p : EntryPatch) (pfn : Word) : EntryPatch := { p with pfn := some pfn }

def isEmpty (p : EntryPatch) : Bool := p.set == 0 && p.clear == 0 && p.pfn.isNone

/-- The bits part of a patch; the frame number is laid over the result by the architecture. -/
def overlay (p : EntryPatch) (raw : Word) : Word := (raw &&& ~~~p.clear) ||| p.set

theorem bit_overlay (p : EntryPatch) (raw : Word) (i : Nat) :
    Word.bit (p.overlay raw) i = (p.set.bit i || (raw.bit i && !p.clear.bit i)) := by
  by_cases h : i < 64
  · simp [overlay, Word.bit_or, Word.bit_and, Word.bit_not, h, Bool.or_comm]
  · simp [Word.bit_of_le _ (Nat.le_of_not_lt h)]

theorem overlay_empty (raw : Word) : empty.overlay raw = raw := by
  apply Word.ext_bit
  intro i _
  simp [bit_overlay, empty, Word.bit_zero]

theorem overlay_replace (new raw : Word) : (replace new).overlay raw = new := by
  apply Word.ext_bit
  intro i hi
  have hclear : (replace new).clear.bit i = true := by
    show Word.bit (~~~0) i = true
    rw [Word.bit_not, Word.bit_zero, decide_eq_true hi]
    rfl
  rw [bit_overlay, hclear, Bool.not_true, Bool.and_false, Bool.or_false]
  rfl

theorem overlay_setBit (p : EntryPatch) (b : UInt32) (raw : Word) :
    (p.setBit b).overlay raw = (p.overlay raw).withBit (b.toNat % 64) true := by
  have hb : b.toNat % 64 < 64 := Nat.mod_lt _ (by decide)
  apply Word.ext_bit
  intro i _
  by_cases hi : i = b.toNat % 64 <;> simp [bit_overlay, setBit, Word.bit_withBit _ hb, hi]

theorem overlay_clearBit (p : EntryPatch) (b : UInt32) (raw : Word) :
    (p.clearBit b).overlay raw = (p.overlay raw).withBit (b.toNat % 64) false := by
  have hb : b.toNat % 64 < 64 := Nat.mod_lt _ (by decide)
  apply Word.ext_bit
  intro i _
  by_cases hi : i = b.toNat % 64 <;> simp [bit_overlay, clearBit, Word.bit_withBit _ hb, hi]

theorem overlay_withPfn (p : EntryPatch) (pfn raw : Word) :
    (p.withPfn pfn).overlay raw = p.overlay raw := rfl

/-- Setting and clearing once more changes nothing. -/
theorem overlay_overlay (p : EntryPatch) (raw : Word) :
    p.overlay (p.overlay raw) = p.overlay raw := by
  apply Word.ext_bit
  intro i _
  rw [bit_overlay, bit_overlay]
  cases p.set.bit i <;> cases p.clear.bit i <;> simp

end EntryPatch

end Paging
