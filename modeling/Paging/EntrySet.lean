import Paging.Address
import Paging.Level

/-!
# Entry sets

What a walk reports for one virtual address of one process: the raw entry found at every level and
the set of levels that were reached. A level that was not reached reads as zero, except that the
entry which ended the walk by being absent is reported although its level is not in the set.
-/

namespace Paging

abbrev Pid := UInt32

structure EntrySet where
  pid : Pid
  vaddr : VirtualAddress
  values : PerLevel Word
  valid : LevelMask
deriving DecidableEq

namespace EntrySet

def empty (pid : Pid) (vaddr : VirtualAddress) : EntrySet :=
  ⟨pid, vaddr, .all 0, .none⟩

/-- Reports `raw` at a level and, when `valid` says so, that the level was reached. -/
def record (s : EntrySet) (l : Level) (raw : Word) (valid : Bool) : EntrySet :=
  { s with
    values := s.values.set l raw
    valid := if valid then s.valid.insert l else s.valid }

/-- The raw entry at a level, reached or not. -/
def raw (s : EntrySet) (l : Level) : Word := s.values.get l

/-- The entry at a level that was reached. -/
def entry? (s : EntrySet) (l : Level) : Option Word :=
  if s.valid.has l then some (s.raw l) else none

/-- The level furthest from the root that was reached. -/
def deepest? (s : EntrySet) : Option Level := s.valid.levels.getLast?

theorem raw_record (s : EntrySet) (l m : Level) (raw : Word) (valid : Bool) :
    (s.record l raw valid).raw m = if m = l then raw else s.raw m :=
  PerLevel.get_set ..

end EntrySet

end Paging
