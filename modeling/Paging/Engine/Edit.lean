import Paging.Engine.Walk

/-!
# Edits

An edit walks to an address and writes the entries at the selected levels that the walk reached,
root first. It never makes or frees tables: a selected level that was not reached is skipped. The
address is invalidated in the TLB after the last write, also if nothing was written or a write
failed, while the space is still held.
-/

namespace Paging.Engine

/-- The entry that a walk reached at a level. -/
def reached? (visits : List Visit) (l : Level) : Option Visit :=
  visits.find? fun v => v.level == l && v.valid

/-- Writes the given levels in order and reports `written` together with those it wrote. -/
def writeLevels (e : Engine) (visits : List Visit) (mask : LevelMask)
    (patchFor : Level → EntryPatch) : List Level → LevelMask → Op LevelMask
  | [], written => pure written
  | l :: rest, written =>
    if !mask.has l then
      e.writeLevels visits mask patchFor rest written
    else
      match reached? visits l with
      | none => do
        Op.note (.levelSkipped l)
        e.writeLevels visits mask patchFor rest written
      | some v => do
        let raw := e.arch.encode v.raw (patchFor l) (Geometry.kind l)
        Op.note (.levelUpdated l v.slot v.raw raw)
        Op.writeWord v.slot raw
        e.writeLevels visits mask patchFor rest (written.insert l)

/-- Lays a patch over the entry of every selected level and reports the levels written. The space is
held from before the walk to after the last write, so that no table moves in between. -/
def edit (e : Engine) (vaddr : VirtualAddress) (pid : Pid) (mask : LevelMask)
    (patchFor : Level → EntryPatch) : Op LevelMask :=
  Op.holding pid fun _ => do
    let visits ← e.walk vaddr pid
    let result ← ExceptT.lift (e.writeLevels visits mask patchFor Level.all .none).run
    Op.flush vaddr
    ExceptT.mk (pure result)

def update (e : Engine) (vaddr : VirtualAddress) (pid : Pid) (values : PerLevel Word)
    (mask : LevelMask) : Op LevelMask :=
  e.edit vaddr pid mask fun l => .replace (values.get l)

def patch (e : Engine) (vaddr : VirtualAddress) (pid : Pid) (mask : LevelMask) (p : EntryPatch) :
    Op LevelMask :=
  e.edit vaddr pid mask fun _ => p

def setBit (e : Engine) (vaddr : VirtualAddress) (pid : Pid) (mask : LevelMask) (b : UInt32) :
    Op LevelMask :=
  e.patch vaddr pid mask (EntryPatch.empty.setBit b)

def clearBit (e : Engine) (vaddr : VirtualAddress) (pid : Pid) (mask : LevelMask) (b : UInt32) :
    Op LevelMask :=
  e.patch vaddr pid mask (EntryPatch.empty.clearBit b)

def setLastBit (e : Engine) (vaddr : VirtualAddress) (pid : Pid) (b : UInt32) : Op Bool := do
  let written ← e.setBit vaddr pid (.single .pte) b
  pure !written.isEmpty

def clearLastBit (e : Engine) (vaddr : VirtualAddress) (pid : Pid) (b : UInt32) : Op Bool := do
  let written ← e.clearBit vaddr pid (.single .pte) b
  pure !written.isEmpty

def setLastPfn (e : Engine) (vaddr : VirtualAddress) (pid : Pid) (pfn : Word) : Op Bool := do
  let written ← e.patch vaddr pid (.single .pte) (EntryPatch.empty.withPfn pfn)
  pure !written.isEmpty

end Paging.Engine
