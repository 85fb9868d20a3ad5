import Paging.CommandLine.Command
import Paging.Geometry.Register

/-!
# Invocations

What a command line asks for. The switches before the name of a command describe the memory image;
everything behind the name belongs to the command. Values are judged in the order in which they are
met, except that one which stands alone right before the name of a command waits until the command
has been read. What is missing or does not go together is looked at last, so that a request for help
wins over it.
-/

namespace Paging.CommandLine

inductive UsageError where
  | unknownArgument (text : String)
  | valueMissing (switch : Switch)
  | valueUnwanted (switch : Switch) (text : String)
  | invalidValue (switch : Switch) (text : String)
  | invalidOperand (operand : Operand) (text : String)
  | repeated (switch : Switch)
  | unknownCommand (name : String)
  | commandMissing
  | operandMissing (operand : Operand)
  | switchMissing (switch : Switch)
  | conflict (one other : Switch)
deriving DecidableEq, Repr

/-- What help can be about. -/
inductive Topic where
  /-- All commands, with a summary of the switches or with all that there is to say of them. -/
  | program (full : Bool)
  | command (verb : Verb)
  /-- How to ask for help. -/
  | help
deriving DecidableEq, Repr

/-- Why a command line is not carried out. -/
inductive Halt where
  | help (topic : Topic)
  | misuse (error : UsageError)
deriving DecidableEq, Repr

inductive Layout where
  | usual
  | named (geometry : NamedGeometry)
  | control (value : Word)
deriving DecidableEq, Repr

def Layout.geometry (arch : Architecture) : Layout → Except Error Geometry
  | usual => .ok (.usual arch)
  | named geometry => .ok geometry.layout
  | control value => Geometry.ofControl arch value

structure Invocation where
  memory : String
  arch : Architecture
  /-- The paging root as the operating system stores it. -/
  root : Word
  layout : Layout
  verbosity : Nat
  command : Command
deriving DecidableEq, Repr

/-! ### Values -/

def architectures : List (String × Architecture) :=
  [("x86_64", .x86_64), ("aarch64", .aarch64), ("riscv64", .riscv64 .standard),
    ("thead", .riscv64 .thead)]

def geometries : List (String × NamedGeometry) :=
  [("4level", .x86FourLevel), ("5level", .x86FiveLevel), ("arm-4k-39", .arm4k39),
    ("arm-4k-48", .arm4k48), ("arm-16k", .arm16k), ("arm-64k", .arm64k), ("sv39", .sv39),
    ("sv48", .sv48), ("sv57", .sv57)]

def levelSets : List (String × LevelMask) :=
  [("pgd", .single .pgd), ("p4d", .single .p4d), ("pud", .single .pud), ("pmd", .single .pmd),
    ("pte", .single .pte), ("all", .all)]

/-- A path is any text but the empty one. -/
def path? (text : String) : Option String := if text.isEmpty then none else some text

/-- The union of the named sets, which commas separate. -/
def levels? (text : String) : Option LevelMask :=
  ((text.toList.splitOn ',').mapM fun f => levelSets.lookup (String.ofList f)).map
    fun sets => sets.foldl LevelMask.union .none

def programSwitches : List Switch :=
  [.memory, .arch, .root, .geometry, .control, .verbose, .help]

/-- What has been said by switches so far. -/
structure Choices where
  memory : Option String
  arch : Option Architecture
  root : Option Word
  geometry : Option NamedGeometry
  control : Option Word
  levels : Option LevelMask
  output : Option String
  verbosity : Nat

namespace Choices

def none : Choices := ⟨.none, .none, .none, .none, .none, .none, .none, 0⟩

/-- Reads the value of a switch that is given only once. -/
def once {α : Type} (s : Switch) (before : Option α) (read? : String → Option α) (text : String) :
    Except Halt (Option α) :=
  match read? text, before with
  | .none, _ => .error (.misuse (.invalidValue s text))
  | some _, some _ => .error (.misuse (.repeated s))
  | some a, .none => .ok (some a)

/-- Also takes in the value of a switch. Levels add up over several switches. -/
def set (c : Choices) (s : Switch) (text : String) : Except Halt Choices :=
  match s with
  | .memory => return { c with memory := ← once s c.memory path? text }
  | .arch => return { c with arch := ← once s c.arch (architectures.lookup ·) text }
  | .root => return { c with root := ← once s c.root Numeral.word? text }
  | .geometry => return { c with geometry := ← once s c.geometry (geometries.lookup ·) text }
  | .control => return { c with control := ← once s c.control Numeral.word? text }
  | .output => return { c with output := ← once s c.output path? text }
  | .levels =>
    match levels? text with
    | some more => .ok { c with levels := some ((c.levels.getD .none).union more) }
    | .none => .error (.misuse (.invalidValue s text))
  | .verbose | .help => .error (.misuse (.valueUnwanted s text))

/-- What a request for help is about, on the line of a command or, without one, of the program. -/
def topic (verb : Option Verb) (spelling : Spelling) : Topic :=
  match verb with
  | some verb => .command verb
  | .none => .program (spelling = .word)

/-- Takes in an item that is no operand, on the line of a command or, without one, of the
program. -/
def take (verb : Option Verb) (c : Choices) : Item → Except Halt Choices
  | .flag .help spelling => .error (.help (topic verb spelling))
  | .flag .verbose _ => .ok { c with verbosity := c.verbosity + 1 }
  | .flag s _ | .valueMissing s => .error (.misuse (.valueMissing s))
  | .value s text _ => c.set s text
  | .unknown text | .operand text _ => .error (.misuse (.unknownArgument text))
  | .valueUnwanted s text => .error (.misuse (.valueUnwanted s text))
  | .separator => .ok c

def layout (c : Choices) : Except Halt Layout :=
  match c.geometry, c.control with
  | some _, some _ => .error (.misuse (.conflict .geometry .control))
  | some geometry, .none => .ok (.named geometry)
  | .none, some value => .ok (.control value)
  | .none, .none => .ok .usual

def required {α : Type} (s : Switch) : Option α → Except Halt α
  | some a => .ok a
  | .none => .error (.misuse (.switchMissing s))

/-- The whole invocation, now that the command is known. -/
def invocation (c : Choices) (command : Command) : Except Halt Invocation := do
  let layout ← c.layout
  return {
    memory := ← required .memory c.memory
    arch := ← required .arch c.arch
    root := ← required .root c.root
    layout := layout
    verbosity := c.verbosity
    command := command }

end Choices

namespace Invocation

/-- Reads what stands behind the name of a command; `wanted` are the operands still to come. -/
def readCommand (verb : Verb) :
    List Item → List Operand → List Word → Choices → Except Halt Command
  | .operand text _ :: rest, operand :: wanted, given, c =>
    match operand.read? text with
    | some w => readCommand verb rest wanted (given ++ [w]) c
    | none => .error (.misuse (.invalidOperand operand text))
  | item :: rest, wanted, given, c => do
    readCommand verb rest wanted given (← c.take verb item)
  | [], operand :: _, _, _ => .error (.misuse (.operandMissing operand))
  | [], [], given, c =>
    match verb.command? given c.levels c.output with
    | some command => .ok command
    | none => .error (.misuse .commandMissing)

/-- The name under which help is asked for like a command. -/
def helpName : String := "help"

/-- Reads the names behind a request for help. -/
def readTopic : List String → Halt
  | [] => .help (.program true)
  | [name] =>
    if name = helpName then .help .help
    else
      match Verb.ofName? name with
      | some verb => .help (.command verb)
      | none => .misuse (.unknownCommand name)
  | name :: other :: _ =>
    if name = helpName || (Verb.ofName? name).isSome then .misuse (.unknownCommand other)
    else .misuse (.unknownCommand name)

/-- Reads the name of a command and what stands behind it. -/
def readNamed (name : String) (after : List String) : Except Halt Command :=
  if name = helpName then .error (readTopic after)
  else
    match Verb.ofName? name with
    | none => .error (.misuse (.unknownCommand name))
    | some verb => readCommand verb (Item.scan verb.switches after) verb.operands [] .none

/-- Reads the line of the program up to the name of a command, and then the command. A value in an
argument of its own right before the name is taken in last. -/
def readProgram : List Item → Choices → Except Halt Invocation
  | [], _ | .separator :: _, _ => .error (.misuse .commandMissing)
  | .operand name after :: _, c => do c.invocation (← readNamed name after)
  | .value s text false :: .operand name after :: _, c => do
    let command ← readNamed name after
    (← c.set s text).invocation command
  | item :: rest, c => do readProgram rest (← c.take none item)

def ofArguments (arguments : List String) : Except Halt Invocation :=
  readProgram (Item.scan programSwitches arguments) .none

end Invocation

end Paging.CommandLine
