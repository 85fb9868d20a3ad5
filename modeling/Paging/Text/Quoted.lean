import Paging.Text.Digits
import Paging.Text.Unprintable

/-!
# Lines, quoted text and sets of flags

How what is printed is put together: the lines of an output, and the two notations that error and
log texts use for a string and for a set of named bits.
-/

namespace Paging

def Text.unlines (lines : List String) : String := String.join (lines.map (· ++ "\n"))

namespace Quoted

/-- A character between double quotes: the usual short escapes, a code point in braces for what has
no form of its own, and otherwise itself. -/
def char (c : Char) : List Char :=
  match c with
  | '"' => ['\\', '"']
  | '\\' => ['\\', '\\']
  | '\n' => ['\\', 'n']
  | '\r' => ['\\', 'r']
  | '\t' => ['\\', 't']
  | '\x00' => ['\\', '0']
  | c =>
    if Unprintable.has c then
      '\\' :: 'u' :: '\x7b' :: (Digits.ofNat 16 c.toNat ++ ['\x7d'])
    else [c]

def chars (cs : List Char) : List Char := '"' :: (cs.flatMap char ++ ['"'])

end Quoted

def quoted (text : String) : String := String.ofList (Quoted.chars text.toList)

namespace FlagSet

/-- The names of the set bits, lowest first, then the bits without a name as one number. -/
def parts (names : List String) (bits : Nat) : List String :=
  let named := names.zipIdx.filterMap fun (name, i) => if bits.testBit i then some name else none
  let unnamed := bits / 2 ^ names.length * 2 ^ names.length
  if unnamed = 0 then named else named ++ [String.ofList (Hex.chars unnamed)]

/-- A set of flags: its parts between bars, or zero when it is empty. -/
def text (typeName : String) (names : List String) (bits : Nat) : String :=
  let shown := if bits = 0 then "0x0" else " | ".intercalate (parts names bits)
  typeName ++ "(" ++ shown ++ ")"

end FlagSet

end Paging
