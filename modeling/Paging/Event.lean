import Paging.Tlb

/-!
# Events

What can be seen of a machine at work, in the order in which it happens: calls on the locks and
roots of address spaces, accesses to memory, TLB invalidations and notices to the log.
-/

namespace Paging

/-- Address spaces are numbered in the order in which they come into being. -/
abbrev SpaceId := Nat

inductive Event where
  /-- An attempt to take the lock of a space without blocking, and whether it succeeded. -/
  | tryLock (space : SpaceId) (taken : Bool)
  /-- A request for the lock of a space that blocks until it is granted. -/
  | lock (space : SpaceId)
  | unlock (space : SpaceId)
  | readRoot (space : SpaceId)
  | setRoot (space : SpaceId) (root : PhysicalAddress)
  | readWord (address : PhysicalAddress)
  | writeWord (address : PhysicalAddress) (word : Word)
  | readBytes (address : PhysicalAddress) (count : Nat)
  | writeBytes (address : PhysicalAddress) (count : Nat)
  | flush (call : FlushCall)
  | notice (notice : Notice)
  /-- A bystander sees the number of references to the space's process while its lock is awaited. -/
  | observed (space : SpaceId) (count : Nat)
  /-- A bystander has released the process while its lock is awaited; the references that remain. -/
  | strayRelease (space : SpaceId) (counts : List (Pid × Nat))
deriving DecidableEq

namespace Event

def ofNotices (ns : List Notice) : List Event := ns.map notice

def notices (es : List Event) : List Notice :=
  es.filterMap fun
    | notice n => some n
    | _ => none

def flushes (es : List Event) : List FlushCall :=
  es.filterMap fun
    | flush call => some call
    | _ => none

end Event

end Paging
