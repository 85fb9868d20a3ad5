import Paging.CommandLine.Invocation
import Paging.Text.Quoted

/-!
# Help

What the program says of itself when asked, and of a command line that it cannot read. The help on
all commands has two forms: a summary with a line for each switch, and the full form with a
paragraph for each.
-/

namespace Paging.CommandLine

namespace Switch

def placeholder (s : Switch) : String := "<" ++ s.long.map Char.toUpper ++ ">"

/-- The switch with its value, as help names it. -/
def usage (s : Switch) : String :=
  "--" ++ s.long ++ (if s.takesValue then " " ++ s.placeholder else "")

def about : Switch → String
  | memory => "Physical memory file, e.g. /dev/mem or a raw memory dump"
  | arch => "Paging architecture of the memory image"
  | root => "Paging root as stored in CR3, TTBR0_EL1 or satp"
  | geometry => "Named paging layout; defaults to the architecture's common layout"
  | control => "Paging control register (CR4, TCR_EL1 or satp) to derive the layout from"
  | verbose => "Increase log output; repeat for more"
  | levels => "[default: pte]"
  | output => "Write the raw page here instead of printing a hex dump"
  | help => "Print help"

def choices : Switch → List String
  | arch => architectures.map (·.1)
  | geometry => geometries.map (·.1)
  | levels => levelSets.map (·.1)
  | _ => []

/-- What there is to say of a single choice. -/
def note? : Switch → String → Option String
  | arch, "thead" => some "RISC-V with T-Head C9xx memory-type bits"
  | _, _ => none

end Switch

def Verb.about : Verb → String
  | resolve => "Print every level of the walk for an address"
  | setBit => "Set one bit in the selected levels of an address's entries"
  | clearBit => "Clear one bit in the selected levels of an address's entries"
  | setPfn => "Point the last-level entry of an address at another frame"
  | readPage => "Dump one physical page"

namespace Help

def programName : String := "pkwalk"

/-- Two columns, the second of which begins behind the widest entry of the first. -/
def columns (rows : List (String × String)) : List String :=
  let width := (rows.map fun r => r.1.length).foldl max 0
  rows.map fun r =>
    "  " ++ r.1 ++ String.ofList (List.replicate (width - r.1.length) ' ') ++ "  " ++ r.2

/-- A switch with its value, its letter in front. -/
def switchUsage (s : Switch) : String :=
  let letter :=
    match s.letter? with
    | some c => "-" ++ c.toString ++ ", "
    | none => "    "
  letter ++ s.usage ++ (if s = .verbose then "..." else "")

def choicesText (s : Switch) : String := "[possible values: " ++ ", ".intercalate s.choices ++ "]"

/-- A switch in a table; `more` says where there is more to read. -/
def switchRow (more : String) (s : Switch) : String × String :=
  let note := if s = .help then more else if s.choices.isEmpty then "" else " " ++ choicesText s
  (switchUsage s, s.about ++ note)

/-- How far the full form indents what it says of a switch. -/
def margin : String := "          "

/-- The choices of a switch one below the other, if there is something to say of one of them. -/
def choiceList (s : Switch) : List String :=
  let width := (s.choices.map String.length).foldl max 0
  s.choices.map fun name =>
    match s.note? name with
    | none => "- " ++ name
    | some note =>
      "- " ++ name ++ ":" ++ String.ofList (List.replicate (width - name.length) ' ') ++ " " ++ note

def choiceLines (s : Switch) : List String :=
  if s.choices.isEmpty then []
  else if s.choices.any fun name => (s.note? name).isSome then
    "" :: (margin ++ "Possible values:") :: (choiceList s).map (margin ++ ·)
  else [margin, margin ++ choicesText s]

def switchParagraph (more : String) (s : Switch) : List String :=
  ["  " ++ switchUsage s, margin ++ s.about ++ (if s = .help then more else "")] ++ choiceLines s

/-- The switches that have to be given, as help names them. -/
def requiredUsage : String := " ".intercalate ([Switch.memory, .arch, .root].map Switch.usage)

def commandUsage (name : String) (options : Bool) (operands : List String) : String :=
  " ".intercalate (["Usage:", programName, requiredUsage, name] ++
    (if options then ["[OPTIONS]"] else []) ++ operands)

def helpAbout : String := "Print this message or the help of the given subcommand(s)"

def helpOperand : String := "[COMMAND]..."

def programLines : List String :=
  ["Resolve and edit page-table entries in a physical memory file", "",
    "Usage: " ++ programName ++ " [OPTIONS] " ++ requiredUsage ++ " <COMMAND>", "", "Commands:"] ++
    columns (Verb.all.map (fun v => (v.name, v.about)) ++ [(Invocation.helpName, helpAbout)]) ++
    ["", "Options:"]

def lines : Topic → List String
  | .program false =>
    programLines ++ columns (programSwitches.map (switchRow " (see more with '--help')"))
  | .program true =>
    let paragraphs := programSwitches.map (switchParagraph " (see a summary with '-h')")
    programLines ++ [""].intercalate paragraphs
  | .command verb =>
    let usage := commandUsage verb.name (verb.switches.length ≠ 1)
      (verb.operands.map Operand.placeholder)
    [verb.about, "", usage, "", "Arguments:"] ++
      columns (verb.operands.map fun o => (o.placeholder, "")) ++
      ["", "Options:"] ++ columns (verb.switches.map (switchRow ""))
  | .help =>
    [helpAbout, "", commandUsage Invocation.helpName false [helpOperand], "", "Arguments:"] ++
      columns [(helpOperand, "Print help for the subcommand(s)")]

def text (topic : Topic) : String := Text.unlines (lines topic)

end Help

def UsageError.message : UsageError → String
  | unknownArgument text => "unexpected argument '" ++ text ++ "' found"
  | valueMissing s => "a value is required for '" ++ s.usage ++ "' but none was supplied"
  | valueUnwanted s text =>
    "unexpected value '" ++ text ++ "' for '" ++ s.usage ++ "' found; no more were expected"
  | invalidValue s text => "invalid value '" ++ text ++ "' for '" ++ s.usage ++ "'"
  | invalidOperand o text => "invalid value '" ++ text ++ "' for '" ++ o.placeholder ++ "'"
  | repeated s => "the argument '" ++ s.usage ++ "' cannot be used multiple times"
  | unknownCommand name => "unrecognized subcommand '" ++ name ++ "'"
  | commandMissing =>
    "'" ++ Help.programName ++ "' requires a subcommand but one was not provided"
  | operandMissing o => "the following required arguments were not provided: " ++ o.placeholder
  | switchMissing s => "the following required arguments were not provided: " ++ s.usage
  | conflict one other =>
    "the argument '" ++ one.usage ++ "' cannot be used with '" ++ other.usage ++ "'"

def Help.misuseText (e : UsageError) : String :=
  "error: " ++ e.message ++ "\n\nFor more information, try '--help'.\n"

end Paging.CommandLine
