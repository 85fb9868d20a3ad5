import Paging.CommandLine.FileTree
import Paging.CommandLine.Finding
import Paging.CommandLine.Help
import Paging.Machine.Settled

/-!
# Runs

A run of the program from its arguments to what it prints and how it exits. The files are reached
through a `FileAccess`, so that one definition serves a file system and a tree held as a value.
-/

namespace Paging.CommandLine

/-- The files that a run works on. -/
structure FileAccess (m : Type → Type) where
  /-- Opens a file as memory, for reading or for writing too. -/
  openMemory (path : String) (writable : Bool) : m (Except FileFailure Memory)
  /-- Puts the changed bytes of an opened file back. -/
  keep (path : String) (bytes : Array UInt8) : m Unit
  /-- Writes a whole file, old or new. -/
  save (path : String) (bytes : Array UInt8) : m (Except FileFailure Unit)

def FileTree.access : FileAccess (StateM FileTree) where
  openMemory path writable := do
    match (← get).openMemory path writable with
    | .ok (memory, t) =>
      set t
      return .ok memory
    | .error why => return .error why
  keep path bytes := modify fun t => (t.save path bytes).toOption.getD t
  save path bytes := do
    match (← get).save path bytes with
    | .ok t =>
      set t
      return .ok ()
    | .error why => return .error why

structure Outcome where
  exit : UInt8
  stdout : String
  stderr : String
deriving DecidableEq, Repr

/-- A notice as it is shown on the error output; names of severities fill five places. -/
def noticeLine (n : Notice) : String :=
  let name := n.severity.name
  "[" ++ name ++ String.ofList (List.replicate (5 - name.length) ' ') ++ "] " ++ n.text

/-- Every request for more output shows one more severity. -/
def shownUpTo (verbosity : Nat) : Severity :=
  match verbosity with
  | 0 => .warn
  | 1 => .info
  | 2 => .debug
  | _ => .trace

/-- What a command that succeeded hands over. -/
inductive Product where
  | lines (lines : List String)
  | file (path : String) (bytes : List UInt8)
deriving DecidableEq

/-- A page that is to be saved is not printed. -/
def Command.product (e : Engine) (c : Command) (f : Finding) : Product :=
  match c, f with
  | .readPage _ (some path), .page _ bytes => .file path bytes
  | _, f => .lines (f.lines e)

/-- What a command has come to, and the memory as it leaves it. -/
structure Report where
  notices : List Notice
  memory : Memory
  result : Except Failure Product

namespace Invocation

def engine (i : Invocation) : Except Error Engine :=
  (i.layout.geometry i.arch).bind (Engine.ofGeometry i.arch)

/-- A machine with the memory image and its only address space. -/
def machine (i : Invocation) (memory : Memory) : Machine :=
  ⟨(LockTable.empty.insertProcess imagePid ⟨i.root⟩).2, memory, .custom, none⟩

theorem settled_machine (i : Invocation) (memory : Memory) : (i.machine memory).locks.Settled :=
  LockTable.settled_single ..

/-- What carrying out the command does to the machine. -/
def effect (i : Invocation) (e : Engine) (memory : Memory) :
    Effect (Except Error (Except Failure Finding)) :=
  (i.command.operation e).run.runSettled (i.machine memory) (i.settled_machine memory)

def perform (i : Invocation) (memory : Memory) : Report :=
  match i.engine with
  | .error error => ⟨[], memory, .error (.refused error)⟩
  | .ok e =>
    let done := i.effect e memory
    let result :=
      match done.reply with
      | .error error => .error (.refused error)
      | .ok (.error failure) => .error failure
      | .ok (.ok finding) => .ok (i.command.product e finding)
    ⟨e.ready :: Event.notices done.events, done.machine.memory, result⟩

/-- How the run ends, given its notices and its lines or why it failed. -/
def outcome (i : Invocation) (notices : List Notice) (result : Except Failure (List String)) :
    Outcome :=
  let shown := notices.filter fun n => n.severity.shownUpTo (shownUpTo i.verbosity)
  let log := shown.map noticeLine
  match result with
  | .ok lines => ⟨0, Text.unlines lines, Text.unlines log⟩
  | .error failure => ⟨1, "", Text.unlines (log ++ ["Error: " ++ failure.text])⟩

variable {m : Type → Type} [Monad m]

/-- Opens the memory image, carries out the command and stores what it changed or made. -/
def run (i : Invocation) (files : FileAccess m) : m Outcome := do
  match ← files.openMemory i.memory i.command.writes with
  | .error why => return i.outcome [] (.error (.cannotOpen i.memory why))
  | .ok memory =>
    let report := i.perform memory
    if report.memory.bytes != memory.bytes then
      files.keep i.memory report.memory.bytes
    match report.result with
    | .error failure => return i.outcome report.notices (.error failure)
    | .ok (.lines lines) => return i.outcome report.notices (.ok lines)
    | .ok (.file path bytes) =>
      match ← files.save path bytes.toArray with
      | .ok () => return i.outcome report.notices (.ok [])
      | .error why => return i.outcome report.notices (.error (.cannotSave why))

end Invocation

/-- How a run ends that carries out nothing. -/
def Halt.outcome : Halt → Outcome
  | help topic => ⟨0, Help.text topic, ""⟩
  | misuse error => ⟨2, "", Help.misuseText error⟩

def run {m : Type → Type} [Monad m] (files : FileAccess m) (arguments : List String) : m Outcome :=
  match Invocation.ofArguments arguments with
  | .error halt => return halt.outcome
  | .ok i => i.run files

end Paging.CommandLine
