/-!
# TLB strategies

The two ways of invalidating an address, numbered as on the request interface.
-/

namespace Paging

inductive TlbStrategy where
  /-- The invalidation routine of the running kernel. -/
  | kernel
  /-- A routine supplied by whoever set the engine up. -/
  | custom
deriving DecidableEq, Repr

namespace TlbStrategy

def ofId? (id : UInt8) : Option TlbStrategy :=
  if id = 0 then some kernel else if id = 1 then some custom else none

def id : TlbStrategy → UInt8
  | kernel => 0
  | custom => 1

def debugText : TlbStrategy → String
  | kernel => "Kernel"
  | custom => "Custom"

theorem ofId?_eq_some_iff {n : UInt8} {s : TlbStrategy} : ofId? n = some s ↔ n = s.id := by
  cases s with
  | kernel => simp [ofId?, id]
  | custom => simp [ofId?, id]; grind

theorem ofId?_eq_none_iff {n : UInt8} : ofId? n = none ↔ 1 < n := by
  simp only [ofId?]
  grind

end TlbStrategy

end Paging
