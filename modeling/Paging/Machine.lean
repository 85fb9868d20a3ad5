import Paging.LockTable
import Paging.Memory
import Paging.Program

/-!
# Machines

Everything a program acts on: the lock table with the address spaces, physical memory, the TLB
control and the memory-type register, if there is one. `perform` is the meaning of one atomic
action, and `Program.run` runs a program while nobody else moves, save that bystanders act when it
is blocked on a lock.
-/

namespace Paging

structure Machine where
  locks : LockTable
  memory : Memory
  tlb : TlbControl
  register : Option Word

/-- What came of running something on a machine. -/
structure Effect (α : Type) where
  events : List Event
  machine : Machine
  reply : α

namespace Machine

def perform (m : Machine) : (action : Action) → Effect action.Reply
  | .release pid =>
    let (events, locks) := m.locks.release pid
    ⟨events, { m with locks := locks }, ()⟩
  | .readRoot space => ⟨[.readRoot space], m, m.locks.root space⟩
  | .setRoot space root =>
    ⟨[.setRoot space root], { m with locks := m.locks.setRoot space root }, ()⟩
  | .readWord address =>
    match m.memory.readWord address with
    | .ok word => ⟨[.readWord address], m, .ok word⟩
    | .error r => ⟨.readWord address :: Event.ofNotices r.notices, m, .error r.error⟩
  | .writeWord address word =>
    match m.memory.writeWord address word with
    | .ok memory => ⟨[.writeWord address word], { m with memory := memory }, .ok ()⟩
    | .error r => ⟨.writeWord address word :: Event.ofNotices r.notices, m, .error r.error⟩
  | .readBytes address count =>
    match m.memory.readBytes address count with
    | .ok bytes => ⟨[.readBytes address count], m, .ok bytes⟩
    | .error r => ⟨.readBytes address count :: Event.ofNotices r.notices, m, .error r.error⟩
  | .writeBytes address bytes =>
    match m.memory.writeBytes address bytes with
    | .ok memory => ⟨[.writeBytes address bytes.length], { m with memory := memory }, .ok ()⟩
    | .error r =>
      ⟨.writeBytes address bytes.length :: Event.ofNotices r.notices, m, .error r.error⟩
  | .flush vaddr => ⟨[.flush (m.tlb.invalidate vaddr)], m, ()⟩
  | .strategy => ⟨[], m, m.tlb.active⟩
  | .switchStrategy id =>
    match m.tlb.switch id with
    | .ok (strategy, tlb) => ⟨[], { m with tlb := tlb }, .ok strategy⟩
    | .error r => ⟨Event.ofNotices r.notices, m, .error r.error⟩
  | .readRegister => ⟨[], m, m.register⟩
  | .writeRegister value => ⟨[], { m with register := m.register.map fun _ => value }, ()⟩
  | .note notice => ⟨[.notice notice], m, ()⟩

end Machine

/-- What others do while a caller for a process is blocked on the lock of a space. -/
abbrev Bystander := Pid → SpaceId → LockTable → List Event × LockTable

namespace Bystander

/-- Whoever has the lock without going through the table gives it back, unseen. -/
def yielding : Bystander := fun _ s t => ([], (t.outsideUnlock s).2)

/-- As `yielding`, but first the references to the process are looked at and, where `stray` says so
of the space, released once. -/
def observing (stray : SpaceId → Bool) : Bystander := fun pid s t =>
  let seen := Event.observed s (t.count pid)
  if stray s then
    let (events, t) := t.release pid
    (seen :: events ++ [.strayRelease s t.counts], (t.outsideUnlock s).2)
  else ([seen], (t.outsideUnlock s).2)

end Bystander

structure Entered where
  events : List Event
  table : LockTable
  reply : Except Error SpaceId

/-- Enters the space of a process while nobody else moves but the bystanders; none if it would wait
for ever. -/
def LockTable.enterAlone (others : Bystander) (pid : Pid) (t : LockTable) : Option Entered :=
  let first := t.start pid
  match first.progress with
  | .granted s => some ⟨first.events, first.table, .ok s⟩
  | .refused e => some ⟨first.events, first.table, .error e⟩
  | .next (.blocked s gate) => do
    let (seen, t) := others pid s first.table
    let taken ← t.enterStep pid (.blocked s gate)
    let published ← taken.table.enterStep pid (.publishing s gate)
    let opened ← published.table.enterStep pid (.opening s gate)
    some ⟨first.events ++ seen ++ taken.events ++ published.events ++ opened.events,
      opened.table, .ok s⟩
  | .next _ => none

/-- Runs a program while nobody else moves but the bystanders; none if it would wait for ever. -/
def Program.run {α : Type} (others : Bystander) : Program α → Machine → Option (Effect α)
  | .done a, m => some ⟨[], m, a⟩
  | .act action next, m =>
    let now := m.perform action
    ((next now.reply).run others now.machine).map fun later =>
      ⟨now.events ++ later.events, later.machine, later.reply⟩
  | .enter pid next, m =>
    (m.locks.enterAlone others pid).bind fun now =>
      ((next now.reply).run others { m with locks := now.table }).map fun later =>
        ⟨now.events ++ later.events, later.machine, later.reply⟩

end Paging
