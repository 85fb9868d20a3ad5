import Paging.Machine

/-!
# Callers in turns

Several programs on one machine. Each caller moves by atomic steps, and a step that has to wait is
not taken; which caller moves next is a matter of the schedule. `contend` is one such schedule:
callers press into a space that somebody outside has locked.
-/

namespace Paging

/-- A program part of the way through: what is left of it, and how far it has come with entering a
space if that is what it does next. -/
structure Caller (α : Type) where
  rest : Program α
  phase : Phase

namespace Caller

variable {α : Type}

def fresh (p : Program α) : Caller α := ⟨p, .start⟩

def result? (c : Caller α) : Option α :=
  match c.rest with
  | .done a => some a
  | _ => none

/-- One atomic step of a caller; none when it has ended or has to wait. -/
def step (c : Caller α) (m : Machine) : Option (Effect (Caller α)) :=
  match c.rest with
  | .done _ => none
  | .act action next =>
    let now := m.perform action
    some ⟨now.events, now.machine, fresh (next now.reply)⟩
  | .enter pid next =>
    (m.locks.enterStep pid c.phase).map fun s =>
      let caller : Caller α :=
        match s.progress with
        | .next phase => ⟨c.rest, phase⟩
        | .granted space => fresh (next (.ok space))
        | .refused e => fresh (next (.error e))
      ⟨s.events, { m with locks := s.table }, caller⟩

end Caller

namespace Schedule

variable {α : Type}

/-- Every caller that can move takes one step, first to last. -/
def sweep : List (Caller α) → Machine → Effect (List (Caller α))
  | [], m => ⟨[], m, []⟩
  | c :: cs, m =>
    match c.step m with
    | none =>
      let later := sweep cs m
      ⟨later.events, later.machine, c :: later.reply⟩
    | some now =>
      let later := sweep cs now.machine
      ⟨now.events ++ later.events, later.machine, now.reply :: later.reply⟩

def sweeps : Nat → List (Caller α) → Machine → Effect (List (Caller α))
  | 0, cs, m => ⟨[], m, cs⟩
  | n + 1, cs, m =>
    let now := sweep cs m
    let later := sweeps n now.reply now.machine
    ⟨now.events ++ later.events, later.machine, later.reply⟩

def releases (pid : Pid) : Nat → LockTable → List Event × LockTable
  | 0, t => ([], t)
  | n + 1, t =>
    let (events, t) := t.release pid
    let (later, t) := releases pid n t
    (events ++ later, t)

end Schedule

/-- What comes of callers pressing into a locked space. -/
structure Contention where
  /-- References to the process while every caller is inside. -/
  held : Nat
  /-- Every caller entered the space that was locked. -/
  sameSpace : Bool
  /-- References after every caller has left. -/
  after : Nat
deriving DecidableEq

namespace Machine

/-- Somebody outside locks a free space, `workers` callers enter its process, the outsider gives the
lock back once one of them is blocked, and when all are inside they leave again. -/
def contend (m : Machine) (pid : Pid) (space : SpaceId) (workers : Nat) : Effect Contention :=
  let callers := List.replicate workers (Caller.fresh (Program.enter pid .done))
  let m := { m with locks := (m.locks.outsideLock space).2 }
  let pressed := Schedule.sweep callers m
  let m := { pressed.machine with locks := (pressed.machine.locks.outsideUnlock space).2 }
  let entered := Schedule.sweeps 6 pressed.reply m
  let locks := entered.machine.locks
  let same := entered.reply.all fun c =>
    match c.result? with
    | some (.ok entered) => entered == space
    | _ => false
  let (left, after) := Schedule.releases pid workers locks
  ⟨[.tryLock space true] ++ pressed.events ++ [.unlock space] ++ entered.events ++ left,
    { entered.machine with locks := after },
    ⟨locks.count pid, same, after.count pid⟩⟩

end Machine

end Paging
