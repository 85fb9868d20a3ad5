import Paging.Engine.Walk
import Paging.Proofs.Entering
import Paging.Proofs.Running

/-!
# Walks as functions of memory

A walk changes neither memory nor a root, so what it answers is a function of the memory and the
root it starts from (`visited`). The run of a walk is this function followed by giving the space
back (`runOn_walk`), and so is a resolution (`runOn_resolve`).
-/

namespace Paging

theorem Memory.error_of_readWord {m : Memory} {a : PhysicalAddress} {r : Refusal}
    (h : m.readWord a = .error r) : r.error = .physicalAccess a := by
  have hbytes : ∀ {r : Refusal}, m.readBytes a 8 = .error r → r.error = .physicalAccess a := by
    intro r hr
    unfold readBytes at hr
    split at hr
    · split at hr
      · cases hr
      · split at hr
        · cases hr
          rfl
        · split at hr
          · cases hr
          · split at hr <;> cases hr
            rfl
    · split at hr <;> cases hr
      rfl
  unfold readWord at h
  split at h
  · cases h
    rfl
  · cases hr : m.readBytes a 8 with
    | ok bytes => simp [hr, Except.map] at h
    | error r' =>
      simp only [hr, Except.map, Except.error.injEq] at h
      subst h
      exact hbytes hr

namespace Engine

variable (e : Engine) (vaddr : VirtualAddress)

/-- The visits of `descend`, read off a memory. -/
def descent (memory : Memory) : List Level → PhysicalAddress → Except Error (List Visit)
  | [], _ => .ok []
  | l :: deeper, table =>
    let slot := e.slotAddress table vaddr l
    match memory.readWord slot with
    | .error _ => .error (.physicalAccess slot)
    | .ok raw =>
      let valid := l == Level.last || e.arch.isPresent (Geometry.kind l) raw
      let here : Visit := ⟨l, slot, raw, valid⟩
      if !valid || l == Level.last || e.arch.isHuge raw then .ok [here]
      else (descent memory deeper (e.arch.tableAddress raw)).map (here :: ·)

/-- The visits of a walk that starts at a root. -/
def visited (memory : Memory) (root : PhysicalAddress) : Except Error (List Visit) :=
  if root.isNull then .ok []
  else e.descent vaddr memory e.geometry.levels (e.arch.rootTable root)

/-! ### Runs -/

variable (others : Bystander) {m : Machine} {pid : Pid} {space : SpaceId} {held : LockTable}

theorem runOn_descend (levels : List Level) (table : PhysicalAddress) (m : Machine) :
    ∃ es, (e.descend vaddr levels table).runOn others m =
      some ⟨es, m, e.descent vaddr m.memory levels table⟩ := by
  induction levels generalizing table with
  | nil => exact ⟨[], rfl⟩
  | cons l deeper ih =>
    have hread := Op.runOn_readWord others (e.slotAddress table vaddr l) m
    cases hw : m.memory.readWord (e.slotAddress table vaddr l) with
    | error r =>
      simp only [hw, Memory.error_of_readWord hw] at hread
      simp only [descent, hw]
      exact ⟨_, Op.runOn_bind_error others hread _⟩
    | ok raw =>
      rw [hw] at hread
      have hrun : (e.descend vaddr (l :: deeper) table).runOn others m = _ :=
        Op.runOn_bind_ok others hread _
      simp only [descent, hw]
      by_cases hv : (!(l == Level.last || e.arch.isPresent (Geometry.kind l) raw) ||
          l == Level.last) = true
      · simp only [hv, if_true, Bool.true_or] at hrun ⊢
        exact ⟨_, hrun⟩
      · simp only [hv, Bool.false_or] at hrun ⊢
        by_cases hh : e.arch.isHuge raw = true
        · simp only [hh, if_true, Bool.false_eq_true, if_false] at hrun ⊢
          rw [Op.runOn_bind_ok others (Op.runOn_note others (.hugePage vaddr l) m)] at hrun
          exact ⟨_, hrun⟩
        · simp only [hh, Bool.false_eq_true, if_false] at hrun ⊢
          obtain ⟨es, hrest⟩ := ih (e.arch.tableAddress raw)
          cases hd : e.descent vaddr m.memory deeper (e.arch.tableAddress raw) with
          | error err =>
            rw [hd] at hrest
            rw [Op.runOn_bind_error others hrest] at hrun
            exact ⟨_, hrun⟩
          | ok rest =>
            rw [hd] at hrest
            rw [Op.runOn_bind_ok others hrest] at hrun
            exact ⟨_, hrun⟩

theorem runOn_walkFrom (space : SpaceId) (pid : Pid) (m : Machine) :
    ∃ es, (e.walkFrom space vaddr pid).runOn others m =
      some ⟨es, m, e.visited vaddr m.memory (m.locks.root space)⟩ := by
  have hrun : (e.walkFrom space vaddr pid).runOn others m = _ :=
    Op.runOn_bind_ok others (Op.runOn_readRoot others space m) _
  unfold visited
  by_cases hr : (m.locks.root space).isNull = true
  · simp only [hr, if_true] at hrun ⊢
    rw [Op.runOn_bind_ok others (Op.runOn_note others (.noRoot pid) m)] at hrun
    exact ⟨_, hrun⟩
  · simp only [hr, Bool.false_eq_true, if_false] at hrun ⊢
    obtain ⟨es, hd⟩ := e.runOn_descend vaddr others e.geometry.levels
      (e.arch.rootTable (m.locks.root space)) m
    rw [hd] at hrun
    exact ⟨_, hrun⟩

/-- A walk in a space that was granted answers from the root stored there and leaves only the
reference behind that it gives back. -/
theorem runOn_walk (h : m.locks.Grants others pid space held) :
    ∃ es, (e.walk vaddr pid).runOn others m =
      some ⟨es, { m with locks := (held.release pid).2 },
        e.visited vaddr m.memory (held.root space)⟩ := by
  obtain ⟨events, hen⟩ := h
  have hrun := Op.runOn_holding_granted others (fun space => e.walkFrom space vaddr pid) hen rfl
  obtain ⟨es, hw⟩ := e.runOn_walkFrom vaddr others space pid { m with locks := held }
  rw [hw] at hrun
  exact ⟨_, hrun⟩

theorem runOn_resolve (h : m.locks.Grants others pid space held) :
    ∃ es, (e.resolve vaddr pid).runOn others m =
      some ⟨es, { m with locks := (held.release pid).2 },
        (e.visited vaddr m.memory (held.root space)).map (EntrySet.ofVisits pid vaddr)⟩ := by
  obtain ⟨es, hw⟩ := e.runOn_walk vaddr others h
  cases hv : e.visited vaddr m.memory (held.root space) with
  | error err =>
    rw [hv] at hw
    exact ⟨_, Op.runOn_bind_error others hw _⟩
  | ok visits =>
    rw [hv] at hw
    exact ⟨_, Op.runOn_bind_ok others hw _⟩

end Engine

end Paging
