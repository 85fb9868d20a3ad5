import Paging.Memory

/-!
# File trees

Files, directories and devices by the names that lead to them from the root, and the rules by which
a path finds one. A path is followed name by name: what stands before the last name has to be a
directory, so the first name that is missing, no directory or too long decides why a path leads
nowhere. Links are followed wherever they are met.
-/

namespace Paging.CommandLine

/-- Where a process writes to when no path is named. -/
inductive Stream where
  | output
  | errors
deriving DecidableEq, Repr

/-- Files that keep nothing. -/
inductive Device where
  /-- Reads as empty and takes everything. -/
  | null
  /-- Reads as zeros without end and takes everything. -/
  | zero
  /-- Reads as zeros without end and takes nothing. -/
  | full
  /-- The terminal of a process that has none. It cannot be opened. -/
  | terminal
  /-- Cannot be read at a position and passes on what is written. -/
  | stream (stream : Stream)
deriving DecidableEq, Repr

namespace Device

/-- The device at an absolute path without detours, if what it holds is the same everywhere. -/
def atPath? (path : String) : Option Device :=
  [("/dev/null", null), ("/dev/zero", zero), ("/dev/full", full)].lookup path

/-- Opens a device as memory. -/
def openMemory (d : Device) (writable : Bool) : Except FileFailure Memory :=
  match d with
  | null => .ok ⟨.file (if writable then .readWrite else .readOnly), #[]⟩
  | zero | full => .ok ⟨.file .zeros, #[]⟩
  | stream _ => .ok ⟨.file .stream, #[]⟩
  | terminal => .error .noSuchDevice

end Device

inductive Node where
  /-- A directory. A sealed one has no room for new files. -/
  | directory (isSealed : Bool)
  | file (bytes : Array UInt8)
  | device (device : Device)

/-- The names from the root to a place in a tree, the last one first. -/
abbrev Place := List String

/-- The most bytes that a name can have. -/
def longestName : Nat := 255

/-- The most bytes that a path can have. -/
def longestPath : Nat := 4095

/-- The place that a name leads to. A dot stays where it is, and two dots lead up as far as the
root. -/
def Place.step (place : Place) (name : String) : Except FileFailure Place :=
  if name = "." then .ok place
  else if name = ".." then .ok place.tail
  else if longestName < name.utf8ByteSize then .error .nameTooLong
  else .ok (name :: place)

/-- What is at each place but the root, which places stand for another, the place at which relative
paths begin, and what has been written to the streams. -/
structure FileTree where
  nodes : List (Place × Node)
  links : List (Place × Place)
  working : Place
  output : Array UInt8
  errors : Array UInt8

/-- A path whose way has been followed up to its last name. -/
structure Approach where
  directory : Place
  name : String
  /-- A slash stands behind the name, so it has to be that of a directory. -/
  slashed : Bool

namespace FileTree

def node? (t : FileTree) : Place → Option Node
  | [] => some (.directory false)
  | place => t.nodes.lookup place

def put (t : FileTree) (place : Place) (node : Node) : FileTree :=
  { t with nodes := (place, node) :: t.nodes.filter fun n => n.1 != place }

theorem lookup_filter_ne (nodes : List (Place × Node)) {place other : Place} (h : other ≠ place) :
    (nodes.filter fun n => n.1 != place).lookup other = nodes.lookup other := by
  induction nodes with
  | nil => rfl
  | cons n ns ih =>
    by_cases hn : n.1 = place
    · have ho : (other == n.1) = false := by simpa [hn] using h
      rw [List.filter_cons_of_neg (by simpa using hn), ih, List.lookup_cons, ho]
    · rw [List.filter_cons_of_pos (by simpa using hn), List.lookup_cons, List.lookup_cons, ih]

/-- A node that is put in place of another or of none is found there, and nothing else changes. -/
theorem node?_put (t : FileTree) {place : Place} (h : place ≠ []) (node : Node) (other : Place) :
    (t.put place node).node? other = if other = place then some node else t.node? other := by
  cases other with
  | nil => simp [node?, Ne.symm h]
  | cons name names =>
    by_cases hp : name :: names = place
    · simp [node?, put, hp]
    · have hb : (name :: names == place) = false := by simpa using hp
      simp only [node?, put, List.lookup_cons, hb, if_neg hp]
      exact lookup_filter_ne t.nodes hp

/-- The bytes of a file in the working directory. -/
def find? (t : FileTree) (name : String) : Option (Array UInt8) :=
  match t.node? (name :: t.working) with
  | some (.file bytes) => some bytes
  | _ => none

/-- The place that a name leads to, or the one that it is a link to. -/
def step (t : FileTree) (place : Place) (name : String) : Except FileFailure Place :=
  (place.step name).map fun next => (t.links.lookup next).getD next

/-- Follows names through directories. -/
def walk (t : FileTree) : Place → List String → Except FileFailure Place
  | place, [] => .ok place
  | place, name :: names => do
    let next ← t.step place name
    match t.node? next with
    | some (.directory _) => t.walk next names
    | some _ => .error .notDirectory
    | none => .error .notFound

/-- Follows a path up to its last name. Empty names lead nowhere, and a path without any other means
the directory that it begins at. -/
def approach (t : FileTree) (path : String) : Except FileFailure Approach := do
  if longestPath < path.utf8ByteSize then throw .nameTooLong
  let chars := path.toList
  let start := if chars.head? = some '/' then [] else t.working
  let names := ((chars.splitOn '/').filter fun f => !f.isEmpty).map String.ofList
  return {
    directory := ← t.walk start names.dropLast
    name := names.getLastD "."
    slashed := chars.getLast? = some '/' }

/-- Where a process finds the file that it has opened under a number. -/
def descriptor (number : Nat) : Place := [decimal number, "fd", "self", "proc"]

/-- Opens what a path leads to as memory, under the first number that is no stream's. A directory
can only be opened for reading. -/
def openMemory (t : FileTree) (path : String) (writable : Bool) :
    Except FileFailure (Memory × FileTree) := do
  let a ← t.approach path
  let place ← t.step a.directory a.name
  let memory : Memory ←
    match t.node? place with
    | none => .error .notFound
    | some (.directory _) =>
      if writable then .error .isDirectory else .ok ⟨.file .directory, #[]⟩
    | some (.file bytes) =>
      if a.slashed then .error .notDirectory
      else .ok ⟨.file (if writable then .readWrite else .readOnly), bytes⟩
    | some (.device d) => if a.slashed then .error .notDirectory else d.openMemory writable
  return (memory, { t with links := (descriptor 3, place) :: t.links })

/-- Writes bytes to a device. -/
def send (t : FileTree) (d : Device) (bytes : Array UInt8) : Except FileFailure FileTree :=
  match d with
  | .null | .zero => .ok t
  | .full => .error .noSpace
  | .terminal => .error .noSuchDevice
  | .stream .output => .ok { t with output := t.output ++ bytes }
  | .stream .errors => .ok { t with errors := t.errors ++ bytes }

/-- Writes a whole file, old or new. No file is made of a path with a slash behind its name, whether
there is such a directory or not. -/
def save (t : FileTree) (path : String) (bytes : Array UInt8) : Except FileFailure FileTree := do
  let a ← t.approach path
  if a.slashed then throw .isDirectory
  let place ← t.step a.directory a.name
  match t.node? place, t.node? a.directory with
  | some (.directory _), _ => throw .isDirectory
  | some (.device d), _ => t.send d bytes
  | some (.file _), _ => return t.put place (.file bytes)
  | none, some (.directory true) => throw .notFound
  | none, _ => return t.put place (.file bytes)

end FileTree

end Paging.CommandLine
