import Paging.Notice

/-!
# TLB control

Holds the routines that invalidate an address and which strategy is active. The kernel strategy
calls a routine of the running kernel; the custom strategy calls a supplied routine, through a
broadcast hook where one is installed. Kernel is only ever active when a kernel routine is there.
-/

namespace Paging

/-- One invalidation as it leaves the control: the routine that is called and for which address. -/
inductive FlushCall where
  | kernel (vaddr : VirtualAddress)
  | custom (vaddr : VirtualAddress)
  /-- The broadcast hook, with the custom routine to run on every processor. -/
  | broadcast (vaddr : VirtualAddress)
deriving DecidableEq, Repr

structure TlbControl where
  kernel : Bool
  broadcast : Bool
  active : TlbStrategy
deriving DecidableEq, Repr

namespace TlbControl

/-- Only the custom routine, which is active. -/
def custom : TlbControl := ⟨false, false, .custom⟩

/-- Installs a kernel routine and makes it the active one. -/
def withKernel (t : TlbControl) : TlbControl := { t with kernel := true, active := .kernel }

/-- Runs the custom routine through a broadcast hook from now on. -/
def withBroadcast (t : TlbControl) : TlbControl := { t with broadcast := true }

/-- Takes the kernel routine from the kernel's symbols: `lookup` gives addresses, and a symbol that
is unknown or at address zero is missing. -/
def ofSymbol (lookup : String → Option Word) (symbol : String) : Except Refusal TlbControl :=
  match lookup symbol with
  | some address =>
    if address = 0 then .error ⟨.symbolNotFound symbol, [.symbolMissing symbol]⟩
    else .ok custom.withKernel
  | none => .error ⟨.symbolNotFound symbol, [.symbolMissing symbol]⟩

def switch (t : TlbControl) (id : UInt8) : Except Refusal (TlbStrategy × TlbControl) :=
  match TlbStrategy.ofId? id with
  | none => .error ⟨.unknownTlbStrategy id, [.unknownStrategy id]⟩
  | some strategy =>
    if strategy = .kernel ∧ t.kernel = false then
      .error ⟨.tlbStrategyUnavailable strategy, [.noKernelStrategy]⟩
    else .ok (strategy, { t with active := strategy })

/-- What an invalidation calls. A kernel strategy without a routine would fall back to custom. -/
def invalidate (t : TlbControl) (vaddr : VirtualAddress) : FlushCall :=
  if t.active = .kernel ∧ t.kernel = true then .kernel vaddr
  else if t.broadcast then .broadcast vaddr
  else .custom vaddr

def boolText (b : Bool) : String := if b then "true" else "false"

def debugText (t : TlbControl) : String :=
  Request.record "TlbControl"
    [("strategy", t.active.debugText), ("kernel", boolText t.kernel),
      ("broadcast", boolText t.broadcast)]

end TlbControl

end Paging
