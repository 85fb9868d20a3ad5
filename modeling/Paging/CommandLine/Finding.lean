import Paging.CommandLine.Command
import Paging.Engine.Edit
import Paging.Engine.Page
import Paging.Text.HexDump

/-!
# Findings

What a command does with an engine, what it finds and why it may fail, and the text of both.
-/

namespace Paging.CommandLine

/-- A memory image has one address space, which belongs to this process. -/
def imagePid : Pid := 0

inductive Finding where
  | entries (set : EntrySet)
  | written (levels : LevelMask)
  | mapped (vaddr : VirtualAddress) (pfn : Word)
  | page (address : Word) (bytes : List UInt8)
deriving DecidableEq

inductive Failure where
  | cannotOpen (path : String) (why : FileFailure)
  | refused (error : Error)
  /-- There was no last-level entry to change. -/
  | unmapped (vaddr : VirtualAddress)
  | cannotSave (why : FileFailure)
deriving DecidableEq

def Failure.text : Failure → String
  | cannotOpen path why => quoted ("Failed to open " ++ path ++ ": " ++ why.message)
  | refused error => error.debugText
  | unmapped vaddr => quoted (vaddr.text ++ " has no last-level entry")
  | cannotSave why => why.debugText

def Command.operation (e : Engine) : Command → Op (Except Failure Finding)
  | resolve vaddr => return .ok (.entries (← e.resolve vaddr imagePid))
  | setBit vaddr bit levels => return .ok (.written (← e.setBit vaddr imagePid levels bit))
  | clearBit vaddr bit levels => return .ok (.written (← e.clearBit vaddr imagePid levels bit))
  | setPfn vaddr pfn => do
    if ← e.setLastPfn vaddr imagePid pfn then
      return .ok (.mapped vaddr pfn)
    else
      return .error (.unmapped vaddr)
  | readPage pfn _ => do
    let bytes ← e.readPage pfn e.pageSize
    return .ok (.page (pfn * UInt64.ofNat e.pageSize) bytes)

namespace Finding

def entryText (e : Engine) (l : Level) (raw : Word) : String :=
  let kind := Geometry.kind l
  let view := e.arch.view kind raw
  let word := String.ofList (Hex.padded 18 raw.toNat)
  if view.present then
    word ++ " pfn=" ++ hex view.pfn ++ (if view.isHuge kind then " huge" else "") ++
      ((view.memoryType.map fun mt => " mt=" ++ decimal mt.toNat).getD "") ++ " " ++
      view.permissions.debugText
  else word ++ " not present"

def levelLine (e : Engine) (set : EntrySet) (l : Level) : String :=
  "  " ++ l.name ++ ": " ++ ((set.entry? l).map (entryText e l)).getD "-"

def writtenLine (levels : LevelMask) : String :=
  match levels.levels with
  | [] => "no level written"
  | ls => "wrote " ++ ", ".intercalate (ls.map Level.name)

def lines (e : Engine) : Finding → List String
  | entries set =>
    (set.vaddr.text ++ " in pid " ++ decimal set.pid.toNat) ::
      e.geometry.levels.map (levelLine e set)
  | written levels => [writtenLine levels]
  | mapped vaddr pfn => [vaddr.text ++ " now maps pfn " ++ hex pfn]
  | page address bytes => (HexDump.rows address bytes).map HexDump.Row.text

end Finding

end Paging.CommandLine
