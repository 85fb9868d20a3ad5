import Paging.Error

/-!
# Requests and responses

The operations of the engine as data, for a transport that receives them from elsewhere. A request
has a text form, which is what the log shows of it.
-/

namespace Paging

inductive Request where
  | resolve (vaddr : VirtualAddress) (pid : Pid)
  | update (vaddr : VirtualAddress) (pid : Pid) (values : PerLevel Word) (mask : LevelMask)
  | getRoot (pid : Pid)
  | setRoot (pid : Pid) (root : PhysicalAddress)
  | readPage (pfn : Word)
  | writePage (pfn : Word) (data : List UInt8)
  | pageSize
  | invalidateTlb (vaddr : VirtualAddress)
  | switchTlb (strategy : UInt8)
  | getMemoryTypes
  | setMemoryTypes (value : Word)
  | lock (pid : Pid)
  | unlock (pid : Pid)
deriving DecidableEq

inductive Response where
  | entries (set : EntrySet)
  | root (address : PhysicalAddress)
  | page (bytes : List UInt8)
  | pageSize (bytes : Word)
  | tlbStrategy (strategy : TlbStrategy)
  | memoryTypes (value : Word)
  | done
deriving DecidableEq

namespace Request

/-- A name with its fields in braces, or alone when there are none. -/
def record (name : String) (fields : List (String × String)) : String :=
  if fields.isEmpty then name
  else name ++ " \x7b " ++ ", ".intercalate (fields.map fun (k, v) => k ++ ": " ++ v) ++ " \x7d"

def numbers (ns : List Nat) : String := "[" ++ ", ".intercalate (ns.map decimal) ++ "]"

def debugText : Request → String
  | resolve vaddr pid => record "Resolve" [("vaddr", vaddr.debugText), ("pid", decimal pid.toNat)]
  | update vaddr pid values mask =>
    record "Update"
      [("vaddr", vaddr.debugText), ("pid", decimal pid.toNat),
        ("values", "LevelValues(" ++ numbers (values.toList.map UInt64.toNat) ++ ")"),
        ("mask", mask.debugText)]
  | getRoot pid => record "GetRoot" [("pid", decimal pid.toNat)]
  | setRoot pid root => record "SetRoot" [("pid", decimal pid.toNat), ("root", root.debugText)]
  | readPage pfn => record "ReadPage" [("pfn", decimal pfn.toNat)]
  | writePage pfn data =>
    record "WritePage" [("pfn", decimal pfn.toNat), ("data", numbers (data.map UInt8.toNat))]
  | pageSize => record "PageSize" []
  | invalidateTlb vaddr => record "InvalidateTlb" [("vaddr", vaddr.debugText)]
  | switchTlb strategy => record "SwitchTlb" [("strategy", decimal strategy.toNat)]
  | getMemoryTypes => record "GetMemoryTypes" []
  | setMemoryTypes value => record "SetMemoryTypes" [("value", decimal value.toNat)]
  | lock pid => record "Lock" [("pid", decimal pid.toNat)]
  | unlock pid => record "Unlock" [("pid", decimal pid.toNat)]

end Request

end Paging
