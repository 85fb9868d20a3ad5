import Paging.Engine.Edit
import Paging.Engine.MemoryTypes
import Paging.Engine.Page

/-!
# Dispatch

Requests carried out by an engine, and the one number that a transport reports back.
-/

namespace Paging

namespace Engine

def answer (e : Engine) : Request → Op Response
  | .resolve vaddr pid => return .entries (← e.resolve vaddr pid)
  | .update vaddr pid values mask => do
    let _ ← e.update vaddr pid values mask
    return .done
  | .getRoot pid => return .root (← pagingRoot pid)
  | .setRoot pid root => do
    setPagingRoot pid root
    return .done
  | .readPage pfn => return .page (← e.readPage pfn e.pageSize)
  | .writePage pfn data => do
    e.writePage pfn data
    return .done
  | .pageSize => return .pageSize (UInt64.ofNat e.pageSize)
  | .invalidateTlb vaddr => do
    Op.flush vaddr
    return .done
  | .switchTlb strategy => return .tlbStrategy (← Op.switchStrategy strategy)
  | .getMemoryTypes => return .memoryTypes (← e.memoryTypes)
  | .setMemoryTypes value => do
    e.setMemoryTypes value
    return .done
  | .lock pid => do
    lock pid
    return .done
  | .unlock pid => do
    Op.release pid
    return .done

/-- Tells the log of a request and carries it out. -/
def dispatch (e : Engine) (request : Request) : Op Response := do
  Op.note (.dispatching request)
  e.answer request

end Engine

def statusOk : Int := 0

def statusFailed : Int := -1

/-- The one number for a result; the log is told of an error. -/
def status {α : Type} (result : Except Error α) : List Notice × Int :=
  match result with
  | .ok _ => ([], statusOk)
  | .error e => ([.requestFailed e], statusFailed)

end Paging
