/-!
# Switches

What can be given on the command line by name, and how one argument is taken apart: `--name`,
`--name=value`, or a dash with letters, the last of which may have its value behind it. `scan` takes
a whole command line apart, left to right.
-/

namespace Paging.CommandLine

inductive Switch where
  | memory
  | arch
  | root
  | geometry
  | control
  | verbose
  | levels
  | output
  | help
deriving DecidableEq, Repr

namespace Switch

def long : Switch → String
  | memory => "memory"
  | arch => "arch"
  | root => "root"
  | geometry => "geometry"
  | control => "control"
  | verbose => "verbose"
  | levels => "levels"
  | output => "output"
  | help => "help"

def letter? : Switch → Option Char
  | memory => some 'm'
  | arch => some 'a'
  | root => some 'r'
  | geometry => some 'g'
  | control => none
  | verbose => some 'v'
  | levels => some 'l'
  | output => some 'o'
  | help => some 'h'

def takesValue : Switch → Bool
  | verbose | help => false
  | _ => true

end Switch

inductive Spelling where
  | word
  | letter
deriving DecidableEq, Repr

/-- One thing that the command line says. -/
inductive Item where
  | flag (switch : Switch) (spelling : Spelling)
  /-- A switch with its value, both in one argument if `joined`, and else in two. -/
  | value (switch : Switch) (text : String) (joined : Bool)
  /-- An argument without a name, and the arguments after it. -/
  | operand (text : String) (after : List String)
  /-- Two dashes alone. Everything after them is an operand. -/
  | separator
  | unknown (argument : String)
  /-- A switch that needs a value came without one. -/
  | valueMissing (switch : Switch)
  /-- A switch that takes no value came with one. -/
  | valueUnwanted (switch : Switch) (text : String)
deriving DecidableEq, Repr

namespace Item

/-- What a single argument says, and the switch whose value the next argument has to be. -/
structure Reading where
  items : List Item
  wants : Option Switch

/-- Reads `--name` or `--name=value`. -/
def readLong (known : List Switch) (body : List Char) : Reading :=
  let name := String.ofList (body.takeWhile (· != '='))
  match known.find? (·.long == name), body.dropWhile (· != '=') with
  | none, _ => ⟨[unknown ("--" ++ name)], none⟩
  | some s, [] => if s.takesValue then ⟨[], some s⟩ else ⟨[flag s .word], none⟩
  | some s, _ :: text =>
    if s.takesValue then ⟨[value s (String.ofList text) true], none⟩
    else ⟨[valueUnwanted s (String.ofList text)], none⟩

/-- The value that stands right behind the letter of a switch. -/
def attached : List Char → List Char
  | '=' :: text => text
  | text => text

/-- Reads the letters behind a dash. -/
def readLetters (known : List Switch) : List Char → Reading
  | [] => ⟨[], none⟩
  | c :: cs =>
    match known.find? (·.letter? == some c) with
    | none => ⟨[unknown ("-" ++ c.toString)], none⟩
    | some s =>
      if !s.takesValue then
        let rest := readLetters known cs
        ⟨flag s .letter :: rest.items, rest.wants⟩
      else if cs.isEmpty then ⟨[], some s⟩
      else ⟨[value s (String.ofList (attached cs)) true], none⟩

/-- Reads an argument with the arguments after it at hand. A dash alone is an operand. -/
def read (known : List Switch) (argument : String) (after : List String) : Reading :=
  match argument.toList with
  | '-' :: '-' :: body => readLong known body
  | '-' :: c :: cs => readLetters known (c :: cs)
  | _ => ⟨[operand argument after], none⟩

/-- An argument can be the value of the switch before it: it is not a switch itself. -/
def canBeValue (argument : String) : Bool :=
  match argument.toList with
  | '-' :: _ :: _ => false
  | _ => true

def operands : List String → List Item
  | [] => []
  | argument :: after => operand argument after :: operands after

/-- Takes apart the rest of a command line on which `known` have a meaning and `wants` still waits
for its value. -/
def scanFrom (known : List Switch) : Option Switch → List String → List Item
  | none, [] => []
  | some s, [] => [valueMissing s]
  | some s, text :: after =>
    if canBeValue text then value s text false :: scanFrom known none after else [valueMissing s]
  | none, argument :: after =>
    if argument = "--" then separator :: operands after
    else
      let reading := read known argument after
      reading.items ++ scanFrom known reading.wants after

/-- Takes a command line apart, given the switches that have a meaning on it. -/
def scan (known : List Switch) (arguments : List String) : List Item :=
  scanFrom known none arguments

end Item

end Paging.CommandLine
