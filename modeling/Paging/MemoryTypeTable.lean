import Paging.Notice

/-!
# Memory-type tables

The x86_64 PAT and the AArch64 MAIR hold eight one-byte slots; a page selects a slot by number and
the slot holds the caching policy. T-Head cores keep the type in the entry, so their table has no
slots and hands identifiers back unchanged.
-/

namespace Paging

/-- How the slots of a memory-type register are laid out. -/
inductive SlotLayout where
  /-- Eight slots whose low three bits count. -/
  | pat
  /-- Eight slots of eight bits, each of an outer and an inner attribute. -/
  | mair
  | inEntry
deriving DecidableEq, Repr

structure MemoryTypeTable where
  layout : SlotLayout
  value : Word
deriving DecidableEq, Repr

namespace MemoryTypeTable

/-- The table of an architecture whose register holds `value`; standard RISC-V has none. -/
def ofRegister (arch : Architecture) (value : Word) : Except Refusal MemoryTypeTable :=
  match arch with
  | .x86_64 => .ok ⟨.pat, value⟩
  | .aarch64 => .ok ⟨.mair, value⟩
  | .riscv64 .thead => .ok ⟨.inEntry, value⟩
  | .riscv64 .standard => .error ⟨.unsupported "memory-type register", [.noRegisterOnRiscv]⟩

/-- The bits of a slot that count, if the table has slots. Slots are numbered modulo eight. -/
def slot? (layout : SlotLayout) (index : UInt8) : Option BitField :=
  let low := 8 * (index.toNat % 8)
  match layout with
  | .pat => some ⟨low, 3⟩
  | .mair => some ⟨low, 8⟩
  | .inEntry => none

def get (t : MemoryTypeTable) (index : UInt8) : UInt8 :=
  match slot? t.layout index with
  | some slot => (slot.get t.value).toUInt8
  | none => index

def set (t : MemoryTypeTable) (index mt : UInt8) : MemoryTypeTable :=
  match slot? t.layout index with
  | some slot => { t with value := slot.put t.value mt.toUInt64 }
  | none => t

/-- A slot value stands for a memory type: it is that type, or on AArch64 both halves are. -/
def holds (layout : SlotLayout) (slot mt : UInt8) : Bool :=
  let inner := slot.toNat % 16
  slot == mt || (layout == .mair && slot.toNat / 16 == inner && mt.toNat == inner)

def slotsHolding (t : MemoryTypeTable) (mt : UInt8) : List UInt8 :=
  [0, 1, 2, 3, 4, 5, 6, 7].filter fun i => holds t.layout (t.get i) mt

def find (t : MemoryTypeTable) (mt : UInt8) : UInt8 :=
  match t.layout with
  | .inEntry => mt
  | _ => (t.slotsHolding mt).foldl (fun found i => found ||| (1 : UInt8) <<< i) 0

def findFirst? (t : MemoryTypeTable) (mt : UInt8) : Option UInt8 :=
  match t.layout with
  | .inEntry => some mt
  | _ => (t.slotsHolding mt).head?

end MemoryTypeTable

end Paging
