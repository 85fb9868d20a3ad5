import Paging.Entry.Arm
import Paging.Entry.Riscv
import Paging.Entry.X86
import Paging.Notice

/-!
# Reading and writing entries of any architecture

One function per question that a walk or an edit asks of an entry, answered by the layout of the
architecture at hand.
-/

namespace Paging.Architecture

def view : Architecture → EntryKind → Word → EntryView
  | .x86_64, kind, raw => X86.view kind raw
  | .aarch64, kind, raw => Arm.view kind raw
  | .riscv64 variant, kind, raw => Riscv.view variant kind raw

def isPresent : Architecture → EntryKind → Word → Bool
  | .x86_64, _, raw => X86.isPresent raw
  | .aarch64, kind, raw => Arm.isPresent kind raw
  | .riscv64 _, _, raw => Riscv.isPresent raw

/-- The entry maps memory itself, if it sits above the last level. -/
def isHuge : Architecture → Word → Bool
  | .x86_64, raw => X86.isHuge raw
  | .aarch64, raw => Arm.isBlock raw
  | .riscv64 _, raw => Riscv.isLeaf raw

def pfnAt : Architecture → EntryKind → Word → Word
  | .x86_64, kind, raw => X86.pfn kind raw
  | .aarch64, _, raw => Arm.pfn raw
  | .riscv64 _, _, raw => Riscv.pfn raw

/-- Replaces the frame number of an entry of the given kind; all other bits stay. -/
def withPfnAt : Architecture → EntryKind → Word → Word → Word
  | .x86_64, kind, raw, pfn => X86.withPfn kind raw pfn
  | .aarch64, _, raw, pfn => Arm.withPfn raw pfn
  | .riscv64 _, _, raw, pfn => Riscv.withPfn raw pfn

def pfn (arch : Architecture) (raw : Word) : Word := arch.pfnAt .page raw

def withPfn (arch : Architecture) (raw pfn : Word) : Word := arch.withPfnAt .page raw pfn

/-- Lays a patch over an entry: first its bits, then its frame number. -/
def encode (arch : Architecture) (existing : Word) (patch : EntryPatch) (kind : EntryKind) : Word :=
  let raw := patch.overlay existing
  match patch.pfn with
  | some pfn => arch.withPfnAt kind raw pfn
  | none => raw

def frameAddress (frame : Word) : PhysicalAddress := ⟨frame <<< 12⟩

/-- The table that an entry above the last level points at. -/
def tableAddress : Architecture → Word → PhysicalAddress
  | .x86_64, raw => frameAddress (X86.tableFrame raw)
  | .aarch64, raw => frameAddress (Arm.pfn raw)
  | .riscv64 _, raw => frameAddress (Riscv.pfn raw)

/-- The root table, given the paging root as the operating system stores it: the control bits that
share its register are dropped, and on RISC-V a satp value is decoded. -/
def rootTable : Architecture → PhysicalAddress → PhysicalAddress
  | .x86_64, root => frameAddress (X86.addressField.get root.word)
  | .aarch64, root => frameAddress (Arm.addressField.get root.word)
  | .riscv64 _, root => frameAddress (Riscv.rootFrame root.word)

/-- Refuses a memory-type operation on entries that hold none. -/
def noMemoryType (operation : String) : Refusal := ⟨.unsupported operation, [.noEntryMemoryType]⟩

/-- Gives an entry another memory type; `huge` selects the layout of a huge page. -/
def applyMemoryType (arch : Architecture) (raw : Word) (mt : UInt8) (huge : Bool) :
    Except Refusal Word :=
  match arch with
  | .x86_64 => .ok (X86.withMemoryType huge raw mt)
  | .aarch64 => .ok (Arm.withMemoryType raw mt)
  | .riscv64 .thead => .ok (Riscv.withMemoryType raw mt)
  | .riscv64 .standard => .error (noMemoryType "apply_memory_type")

/-- The memory type of an entry; `huge` selects the layout of a huge page. -/
def extractMemoryType (arch : Architecture) (raw : Word) (huge : Bool) : Except Refusal UInt8 :=
  match arch with
  | .x86_64 => .ok (X86.memoryType huge raw)
  | .aarch64 => .ok (Arm.memoryType raw)
  | .riscv64 .thead => .ok (Riscv.memoryType raw)
  | .riscv64 .standard => .error (noMemoryType "extract_memory_type")

end Paging.Architecture
