import Paging.Engine
import Paging.MemoryTypeTable

/-!
# Memory types of an engine

The memory-type register of the machine, raw and as a table. T-Head cores keep the type in the
entry, so their table is made without reading a register.
-/

namespace Paging.Engine

def memoryTypes (e : Engine) : Op Word := do
  match ← Op.readRegister with
  | some value => pure value
  | none => Op.refuse ⟨.unsupported "memory types", [.noRegister e.arch]⟩

def setMemoryTypes (e : Engine) (value : Word) : Op Unit := do
  let _ ← e.memoryTypes
  Op.writeRegister value

def memoryTypeTable (e : Engine) : Op MemoryTypeTable := do
  let value ← if e.arch = .riscv64 .thead then pure 0 else e.memoryTypes
  Op.ofExcept (MemoryTypeTable.ofRegister e.arch value)

def getMt (e : Engine) (index : UInt8) : Op UInt8 := do
  let table ← e.memoryTypeTable
  pure (table.get index)

/-- Stores a memory type in a slot and writes the table back. -/
def setMt (e : Engine) (index mt : UInt8) : Op Unit := do
  let table ← e.memoryTypeTable
  e.setMemoryTypes (table.set index mt).value

def findMt (e : Engine) (mt : UInt8) : Op UInt8 := do
  let table ← e.memoryTypeTable
  pure (table.find mt)

def findFirstMt (e : Engine) (mt : UInt8) : Op (Option UInt8) := do
  let table ← e.memoryTypeTable
  pure (table.findFirst? mt)

end Paging.Engine
