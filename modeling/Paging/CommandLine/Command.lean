import Paging.CommandLine.Switch
import Paging.Address
import Paging.Level
import Paging.Text.Numeral

/-!
# Commands

What the command line can do to a memory image, and the name, operands and switches of each command.
-/

namespace Paging.CommandLine

inductive Command where
  | resolve (vaddr : VirtualAddress)
  | setBit (vaddr : VirtualAddress) (bit : UInt32) (levels : LevelMask)
  | clearBit (vaddr : VirtualAddress) (bit : UInt32) (levels : LevelMask)
  | setPfn (vaddr : VirtualAddress) (pfn : Word)
  /-- Prints a page, or saves it when there is a path to save it at. -/
  | readPage (pfn : Word) (output : Option String)
deriving DecidableEq, Repr

def Command.writes : Command → Bool
  | setBit .. | clearBit .. | setPfn .. => true
  | resolve _ | readPage .. => false

inductive Operand where
  | vaddr
  | bit
  | pfn
deriving DecidableEq, Repr

namespace Operand

def placeholder : Operand → String
  | vaddr => "<VADDR>"
  | bit => "<BIT>"
  | pfn => "<PFN>"

/-- The value of an operand; a bit number fits in 32 bits. -/
def read? : Operand → String → Option Word
  | vaddr, text | pfn, text => Numeral.word? text
  | bit, text => (Numeral.bitNumber? text).map UInt32.toUInt64

end Operand

inductive Verb where
  | resolve
  | setBit
  | clearBit
  | setPfn
  | readPage
deriving DecidableEq, Repr

namespace Verb

def all : List Verb := [resolve, setBit, clearBit, setPfn, readPage]

def name : Verb → String
  | resolve => "resolve"
  | setBit => "set-bit"
  | clearBit => "clear-bit"
  | setPfn => "set-pfn"
  | readPage => "read-page"

def ofName? (name : String) : Option Verb := all.find? (·.name == name)

/-- The operands of a command, in order; all are needed. -/
def operands : Verb → List Operand
  | resolve => [.vaddr]
  | setBit | clearBit => [.vaddr, .bit]
  | setPfn => [.vaddr, .pfn]
  | readPage => [.pfn]

def switches : Verb → List Switch
  | setBit | clearBit => [.levels, .help]
  | readPage => [.output, .help]
  | resolve | setPfn => [.help]

/-- The command with the values of its operands, if there are as many as it has. Without a choice of
levels the last level is meant. -/
def command? (verb : Verb) (operands : List Word) (levels : Option LevelMask)
    (output : Option String) : Option Command :=
  let levels := levels.getD (.single .pte)
  match verb, operands with
  | resolve, [vaddr] => some (.resolve ⟨vaddr⟩)
  | setBit, [vaddr, bit] => some (.setBit ⟨vaddr⟩ bit.toUInt32 levels)
  | clearBit, [vaddr, bit] => some (.clearBit ⟨vaddr⟩ bit.toUInt32 levels)
  | setPfn, [vaddr, pfn] => some (.setPfn ⟨vaddr⟩ pfn)
  | readPage, [pfn] => some (.readPage pfn output)
  | _, _ => none

end Verb

end Paging.CommandLine
