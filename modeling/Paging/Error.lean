import Paging.EntrySet
import Paging.Tlb.Strategy

/-!
# Errors

Why an operation fails. A walk that stops at an absent entry is not an error: it is reported as an
entry set that ends early.
-/

namespace Paging

inductive Error where
  | processNotFound (pid : Pid)
  | unsupported (operation : String)
  | symbolNotFound (symbol : String)
  /-- One more reference to the address space cannot be counted. -/
  | lockOverflow (pid : Pid)
  | physicalAccess (address : PhysicalAddress)
  | unknownTlbStrategy (id : UInt8)
  /-- The TLB strategy exists but was not set up. -/
  | tlbStrategyUnavailable (strategy : TlbStrategy)
  | invalidGeometry
  /-- A paging control register holds a value without a meaning. -/
  | unrecognizedConfiguration (value : Word)
  | bufferSize (expected actual : Nat)
deriving DecidableEq, Repr

namespace Error

def message : Error → String
  | processNotFound pid => "no address space for pid " ++ decimal pid.toNat
  | unsupported operation => operation ++ " is not supported on this platform"
  | symbolNotFound symbol => "unable to resolve kernel symbol `" ++ symbol ++ "`"
  | lockOverflow pid => "lock count overflow for pid " ++ decimal pid.toNat
  | physicalAccess address => "physical memory access failed at " ++ address.text
  | unknownTlbStrategy id => "unknown TLB invalidation strategy " ++ decimal id.toNat
  | tlbStrategyUnavailable strategy =>
    "TLB invalidation strategy " ++ strategy.debugText ++ " is not available"
  | invalidGeometry => "invalid paging geometry"
  | unrecognizedConfiguration value => "unrecognized paging configuration " ++ hex value
  | bufferSize expected actual =>
    "page buffer is " ++ decimal actual ++ " bytes, expected " ++ decimal expected

def kindName : Error → String
  | processNotFound _ => "ProcessNotFound"
  | unsupported _ => "UnsupportedPlatform"
  | symbolNotFound _ => "SymbolResolutionFailure"
  | lockOverflow _ => "LockOverflow"
  | physicalAccess _ => "PhysicalAccess"
  | unknownTlbStrategy _ => "UnknownTlbStrategy"
  | tlbStrategyUnavailable _ => "TlbStrategyUnavailable"
  | invalidGeometry => "InvalidGeometry"
  | unrecognizedConfiguration _ => "UnrecognizedConfiguration"
  | bufferSize _ _ => "BufferSize"

/-- The kind of error with what it is about, as shown when a program ends with it. -/
def debugText (e : Error) : String :=
  let about : Option String :=
    match e with
    | processNotFound pid | lockOverflow pid => some ("(" ++ decimal pid.toNat ++ ")")
    | unsupported text | symbolNotFound text => some ("(" ++ quoted text ++ ")")
    | physicalAccess address => some ("(" ++ address.debugText ++ ")")
    | unknownTlbStrategy id => some ("(" ++ decimal id.toNat ++ ")")
    | tlbStrategyUnavailable strategy => some ("(" ++ strategy.debugText ++ ")")
    | invalidGeometry => none
    | unrecognizedConfiguration value => some ("(" ++ decimal value.toNat ++ ")")
    | bufferSize expected actual =>
      some (" \x7b expected: " ++ decimal expected ++ ", actual: " ++ decimal actual ++ " \x7d")
  e.kindName ++ about.getD ""

end Error

end Paging
