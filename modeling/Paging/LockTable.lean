import Paging.Event
import Paging.PidMap

/-!
# The lock table

The lock over an address space is exclusive and not reentrant, yet one operation may need a space
several times. The table counts references per process and takes a space's lock only for the first
of them, giving it back with the last.

A first caller who finds the lock taken leaves a pending hold, which carries a gate, and blocks.
Later callers for the same process wait at the gate instead of at the lock. `enterStep` is one
caller's way through this, one atomic step at a time; `release` is the way back.
-/

namespace Paging

/-- Who has the lock of an address space. -/
inductive Holder where
  /-- The table, for the references to this process. -/
  | table (pid : Pid)
  /-- Somebody who does not go through the table. -/
  | outsider
deriving DecidableEq, Repr

structure AddressSpace where
  /-- The paging root as the operating system stores it. -/
  root : PhysicalAddress
  holder : Option Holder
deriving DecidableEq, Repr

abbrev GateId := Nat

structure Hold where
  space : SpaceId
  count : Nat
  /-- Present while the first caller still waits for the lock. -/
  gate : Option GateId
deriving DecidableEq, Repr

structure LockTable where
  processes : PidMap SpaceId
  spaces : List AddressSpace
  holds : PidMap Hold
  /-- For every gate that was ever made, whether it is open. -/
  gates : List Bool
deriving DecidableEq

/-- Where a caller stands on its way into an address space. -/
inductive Phase where
  /-- About to look at the table. -/
  | start
  /-- At the gate of another caller's pending hold. -/
  | waiting (gate : GateId)
  /-- Behind its own pending hold, waiting for the lock. -/
  | blocked (space : SpaceId) (gate : GateId)
  /-- Has the lock and is about to turn the pending hold into a first reference. -/
  | publishing (space : SpaceId) (gate : GateId)
  | opening (space : SpaceId) (gate : GateId)
deriving DecidableEq, Repr

inductive Progress where
  | next (phase : Phase)
  | granted (space : SpaceId)
  | refused (error : Error)
deriving DecidableEq, Repr

structure Step where
  progress : Progress
  events : List Event
  table : LockTable
deriving DecidableEq

namespace LockTable

def empty : LockTable := ⟨.empty, [], .empty, []⟩

/-- Counts of references fit in 64 bits. -/
def countLimit : Nat := 2 ^ 64

def holder? (t : LockTable) (s : SpaceId) : Option Holder := t.spaces[s]?.bind (·.holder)

/-- The space exists and nobody has its lock. -/
def isFree (t : LockTable) (s : SpaceId) : Bool := t.spaces[s]?.any (·.holder.isNone)

def setHolder (t : LockTable) (s : SpaceId) (h : Option Holder) : LockTable :=
  { t with spaces := t.spaces.modify s fun a => { a with holder := h } }

def root (t : LockTable) (s : SpaceId) : PhysicalAddress :=
  (t.spaces[s]?.map (·.root)).getD .zero

def setRoot (t : LockTable) (s : SpaceId) (root : PhysicalAddress) : LockTable :=
  { t with spaces := t.spaces.modify s fun a => { a with root := root } }

def isOpen (t : LockTable) (g : GateId) : Bool := t.gates.getD g false

/-- References to a process; none while its hold is pending. -/
def count (t : LockTable) (pid : Pid) : Nat := ((t.holds.find? pid).map (·.count)).getD 0

/-- The processes that are held or pending, with their references, ascending. -/
def counts (t : LockTable) : List (Pid × Nat) := t.holds.entries.map fun (pid, h) => (pid, h.count)

/-- Lets a process name an existing space; gives back the space that it named before. -/
def bindProcess (t : LockTable) (pid : Pid) (s : SpaceId) : Option SpaceId × LockTable :=
  (t.processes.find? pid, { t with processes := t.processes.insert pid s })

/-- Makes a new space with nobody in it for a process; gives back the space that it named before. -/
def insertProcess (t : LockTable) (pid : Pid) (root : PhysicalAddress) :
    Option SpaceId × LockTable :=
  bindProcess { t with spaces := t.spaces ++ [⟨root, none⟩] } pid t.spaces.length

/-- Forgets a process; gives back the space that it named. Holds of it stay. -/
def removeProcess (t : LockTable) (pid : Pid) : Option SpaceId × LockTable :=
  (t.processes.find? pid, { t with processes := t.processes.erase pid })

/-- The first look at the table: join the hold that is there, wait at its gate, or begin a hold. -/
def start (t : LockTable) (pid : Pid) : Step :=
  match t.holds.find? pid with
  | some hold =>
    match hold.gate with
    | some gate => ⟨.next (.waiting gate), [], t⟩
    | none =>
      if hold.count + 1 < countLimit then
        ⟨.granted hold.space, [],
          { t with holds := t.holds.insert pid { hold with count := hold.count + 1 } }⟩
      else ⟨.refused (.lockOverflow pid), [.notice (.countOverflow pid)], t⟩
  | none =>
    match t.processes.find? pid with
    | none => ⟨.refused (.processNotFound pid), [.notice (.unknownProcess pid)], t⟩
    | some s =>
      if t.isFree s then
        ⟨.granted s, [.tryLock s true],
          { t.setHolder s (some (.table pid)) with holds := t.holds.insert pid ⟨s, 1, none⟩ }⟩
      else
        let gate := t.gates.length
        ⟨.next (.blocked s gate), [.tryLock s false, .notice (.waiting pid), .lock s],
          { t with
            holds := t.holds.insert pid ⟨s, 0, some gate⟩
            gates := t.gates ++ [false] }⟩

/-- Turns the pending hold of a process into its first reference. -/
def publish (t : LockTable) (pid : Pid) : LockTable :=
  match t.holds.find? pid with
  | some hold => { t with holds := t.holds.insert pid { hold with count := 1, gate := none } }
  | none => t

/-- One atomic step of a caller that enters the space of a process; none where it has to wait. -/
def enterStep (t : LockTable) (pid : Pid) : Phase → Option Step
  | .start => some (t.start pid)
  | .waiting gate => if t.isOpen gate then some ⟨.next .start, [], t⟩ else none
  | .blocked s gate =>
    if t.isFree s then
      some ⟨.next (.publishing s gate), [], t.setHolder s (some (.table pid))⟩
    else none
  | .publishing s gate => some ⟨.next (.opening s gate), [], t.publish pid⟩
  | .opening s gate => some ⟨.granted s, [], { t with gates := t.gates.set gate true }⟩

/-- Gives back one reference to a process, and the lock with the last one. A release of what is not
held, or not yet, is noticed and changes nothing. -/
def release (t : LockTable) (pid : Pid) : List Event × LockTable :=
  match t.holds.find? pid with
  | none => ([.notice (.notHeld pid)], t)
  | some hold =>
    if hold.gate.isSome ∨ hold.count = 0 then ([.notice (.notAcquired pid)], t)
    else if hold.count = 1 then
      ([.unlock hold.space, .notice (.unlocked pid)],
        { t.setHolder hold.space none with holds := t.holds.erase pid })
    else
      ([], { t with holds := t.holds.insert pid { hold with count := hold.count - 1 } })

def outsideLock (t : LockTable) (s : SpaceId) : Bool × LockTable :=
  if t.isFree s then (true, t.setHolder s (some .outsider)) else (false, t)

def outsideUnlock (t : LockTable) (s : SpaceId) : Bool × LockTable :=
  if t.holder? s = some .outsider then (true, t.setHolder s none) else (false, t)

def countsText (counts : List (Pid × Nat)) : String :=
  "\x7b" ++ ", ".intercalate (counts.map fun (pid, n) =>
    decimal pid.toNat ++ ": " ++ decimal n) ++ "\x7d"

end LockTable

end Paging
