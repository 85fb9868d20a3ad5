import Paging.Engine

/-!
# Walks

A walk follows an address from the root table down and visits one entry per level. It ends at the
last level, at an entry that is absent or at one that maps memory itself. An entry of the last level
counts as reached once its table exists, present or not.
-/

namespace Paging

structure Visit where
  level : Level
  slot : PhysicalAddress
  raw : Word
  /-- The level was reached: an edit may write here. -/
  valid : Bool
deriving DecidableEq

namespace Engine

/-- Where a table keeps the entry for an address. -/
def slotAddress (e : Engine) (table : PhysicalAddress) (vaddr : VirtualAddress) (l : Level) :
    PhysicalAddress :=
  table.add (UInt64.ofNat (e.geometry.index vaddr l * entrySize))

/-- Visits the given levels, the first of which has its table at `table`. -/
def descend (e : Engine) (vaddr : VirtualAddress) : List Level → PhysicalAddress → Op (List Visit)
  | [], _ => pure []
  | l :: deeper, table => do
    let slot := e.slotAddress table vaddr l
    let raw ← Op.readWord slot
    let valid := l == Level.last || e.arch.isPresent (Geometry.kind l) raw
    let here : Visit := ⟨l, slot, raw, valid⟩
    if !valid || l == Level.last then
      pure [here]
    else if e.arch.isHuge raw then
      Op.note (.hugePage vaddr l)
      pure [here]
    else
      let rest ← e.descend vaddr deeper (e.arch.tableAddress raw)
      pure (here :: rest)

/-- Walks the tables of a space that is held for `pid`. A space without a root has no tables. -/
def walkFrom (e : Engine) (space : SpaceId) (vaddr : VirtualAddress) (pid : Pid) :
    Op (List Visit) := do
  let root ← Op.readRoot space
  if root.isNull then
    Op.note (.noRoot pid)
    pure []
  else
    e.descend vaddr e.geometry.levels (e.arch.rootTable root)

/-- Holds the space of a process and walks its tables. -/
def walk (e : Engine) (vaddr : VirtualAddress) (pid : Pid) : Op (List Visit) :=
  Op.holding pid fun space => e.walkFrom space vaddr pid

end Engine

def EntrySet.ofVisits (pid : Pid) (vaddr : VirtualAddress) (visits : List Visit) : EntrySet :=
  visits.foldl (fun set v => set.record v.level v.raw v.valid) (.empty pid vaddr)

namespace Engine

def resolve (e : Engine) (vaddr : VirtualAddress) (pid : Pid) : Op EntrySet := do
  let visits ← e.walk vaddr pid
  pure (.ofVisits pid vaddr visits)

/-- A bit of the last-level entry, if that level was reached; bits are counted modulo 64. -/
def lastBit? (e : Engine) (vaddr : VirtualAddress) (pid : Pid) (b : UInt32) : Op (Option Bool) := do
  let set ← e.resolve vaddr pid
  pure ((set.entry? .pte).map fun raw => raw.bit (b.toNat % 64))

/-- The frame number of the last-level entry, if that level was reached. -/
def lastPfn? (e : Engine) (vaddr : VirtualAddress) (pid : Pid) : Op (Option Word) := do
  let set ← e.resolve vaddr pid
  pure ((set.entry? .pte).map e.arch.pfn)

end Engine

end Paging
