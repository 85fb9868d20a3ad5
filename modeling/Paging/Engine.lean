import Paging.Entry.Codec
import Paging.Geometry
import Paging.Program

/-!
# Engines

An engine reads and edits the page tables of one architecture laid out by one geometry. Its
operations are programs; the machine that they run on holds everything that changes.
-/

namespace Paging

structure Engine where
  arch : Architecture
  geometry : Geometry
deriving DecidableEq

namespace Engine

def ofGeometry (arch : Architecture) (geometry : Geometry) : Except Error Engine :=
  if geometry.isUsable then .ok ⟨arch, geometry⟩ else .error .invalidGeometry

theorem ofGeometry_eq_ok_iff {arch : Architecture} {g : Geometry} {e : Engine} :
    ofGeometry arch g = .ok e ↔ g.isUsable = true ∧ e = ⟨arch, g⟩ := by
  unfold ofGeometry
  by_cases h : g.isUsable = true
  · simp only [h, if_true, Except.ok.injEq, true_and]
    exact eq_comm
  · simp [h]

def ready (e : Engine) : Notice :=
  .engineReady e.arch e.geometry.levels.length e.geometry.virtualBits e.geometry.pageSize

def pageSize (e : Engine) : Nat := e.geometry.pageSize

/-- Keeps a process held until it is released. -/
def lock (pid : Pid) : Op Unit := do
  let _ ← Op.acquire pid

def pagingRoot (pid : Pid) : Op PhysicalAddress := Op.holding pid Op.readRoot

def setPagingRoot (pid : Pid) (root : PhysicalAddress) : Op Unit :=
  Op.holding pid fun space => do
    Op.note (.rootChanged pid root)
    Op.setRoot space root

/-- Reloads the paging root of a process between two serializing barriers of the processor. -/
def barrier (pid : Pid) : Op Unit :=
  Op.holding pid fun space => do
    let root ← Op.readRoot space
    Op.setRoot space root

end Engine

end Paging
