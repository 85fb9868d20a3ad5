import Paging.Proofs.Slots
import Paging.Proofs.Traces

/-!
# What a walk looks at

A walk looks at one slot of each level from the root on, up to the one where it ends or that it
cannot read (`Engine.probes`); these are the words that its run reads (`Engine.wordsRead_resolve`).
Nothing else bears on where it goes: over another memory and for another address it pays the same
visits, if the entries and the indices at these levels are the same (`Engine.visited_congr`).
-/

namespace Paging

namespace Engine

variable (e : Engine) (vaddr : VirtualAddress)

/-- The levels that `descend` looks at, each with its slot. -/
def probesFrom (memory : Memory) : List Level → PhysicalAddress → List (Level × PhysicalAddress)
  | [], _ => []
  | l :: deeper, table =>
    let slot := e.slotAddress table vaddr l
    (l, slot) ::
      match memory.readWord slot with
      | .error _ => []
      | .ok raw =>
        let valid := l == Level.last || e.arch.isPresent (Geometry.kind l) raw
        if !valid || l == Level.last || e.arch.isHuge raw then []
        else probesFrom memory deeper (e.arch.tableAddress raw)

/-- The levels that a walk from a root looks at, each with its slot. -/
def probes (memory : Memory) (root : PhysicalAddress) : List (Level × PhysicalAddress) :=
  if root.isNull then []
  else e.probesFrom vaddr memory e.geometry.levels (e.arch.rootTable root)

/-! ### Walks that look at the same -/

variable {vaddr} {memory memory' : Memory} {vaddr' : VirtualAddress}

theorem descent_congr {levels : List Level} {table : PhysicalAddress}
    (h : ∀ p ∈ e.probesFrom vaddr memory levels table,
      e.geometry.index vaddr' p.1 = e.geometry.index vaddr p.1 ∧
        memory'.readWord p.2 = memory.readWord p.2) :
    e.descent vaddr' memory' levels table = e.descent vaddr memory levels table ∧
      e.probesFrom vaddr' memory' levels table = e.probesFrom vaddr memory levels table := by
  induction levels generalizing table with
  | nil => exact ⟨rfl, rfl⟩
  | cons l deeper ih =>
    obtain ⟨hindex, hread⟩ := h _ (List.mem_cons_self ..)
    have hslot : e.slotAddress table vaddr' l = e.slotAddress table vaddr l := by
      simp only [slotAddress, hindex]
    simp only [descent, probesFrom, hslot, hread]
    cases hw : memory.readWord (e.slotAddress table vaddr l) with
    | error r => exact ⟨rfl, rfl⟩
    | ok raw =>
      dsimp only
      split
      · exact ⟨rfl, rfl⟩
      · rename_i hon
        obtain ⟨hrest, hprobes⟩ := @ih (e.arch.tableAddress raw) fun p hp => by
          apply h p
          simp only [probesFrom, hw, if_neg hon]
          exact List.mem_cons_of_mem _ hp
        rw [hrest, hprobes]
        exact ⟨rfl, rfl⟩

theorem visited_congr {root : PhysicalAddress}
    (h : ∀ p ∈ e.probes vaddr memory root,
      e.geometry.index vaddr' p.1 = e.geometry.index vaddr p.1 ∧
        memory'.readWord p.2 = memory.readWord p.2) :
    e.visited vaddr' memory' root = e.visited vaddr memory root ∧
      e.probes vaddr' memory' root = e.probes vaddr memory root := by
  unfold visited probes at *
  split
  · exact ⟨rfl, rfl⟩
  · rename_i hroot
    rw [if_neg hroot] at h
    exact e.descent_congr h

/-! ### Slots and levels -/

theorem aligned_probesFrom (vaddr : VirtualAddress) (memory : Memory) (levels : List Level)
    {table : PhysicalAddress} (ht : table.Aligned) :
    ∀ p ∈ e.probesFrom vaddr memory levels table, p.2.Aligned := by
  induction levels generalizing table with
  | nil => exact nofun
  | cons l deeper ih =>
    intro p hp
    simp only [probesFrom] at hp
    rcases List.mem_cons.mp hp with rfl | hp
    · exact e.aligned_slotAddress vaddr ht l
    · cases hw : memory.readWord (e.slotAddress table vaddr l) with
      | error r =>
        rw [hw] at hp
        cases hp
      | ok raw =>
        simp only [hw] at hp
        split at hp
        · cases hp
        · exact ih (e.arch.holdsTable_tableAddress raw).aligned p hp

theorem aligned_probes (vaddr : VirtualAddress) (memory : Memory) (root : PhysicalAddress) :
    ∀ p ∈ e.probes vaddr memory root, p.2.Aligned := by
  unfold probes
  split
  · exact nofun
  · exact e.aligned_probesFrom vaddr memory _ (e.arch.holdsTable_rootTable root).aligned

theorem levels_probesFrom (vaddr : VirtualAddress) (memory : Memory) (levels : List Level)
    (table : PhysicalAddress) :
    (e.probesFrom vaddr memory levels table).map Prod.fst <+: levels := by
  induction levels generalizing table with
  | nil => exact List.prefix_refl _
  | cons l deeper ih =>
    simp only [probesFrom, List.map_cons]
    apply (List.prefix_cons_inj l).mpr
    split
    · exact List.nil_prefix
    · split
      · exact List.nil_prefix
      · exact ih _

theorem levels_probes (vaddr : VirtualAddress) (memory : Memory) (root : PhysicalAddress) :
    (e.probes vaddr memory root).map Prod.fst <+: e.geometry.levels := by
  unfold probes
  split
  · exact List.nil_prefix
  · exact e.levels_probesFrom vaddr memory _ _

/-! ### Runs -/

variable (vaddr) (others : Bystander) {m : Machine} {pid : Pid} {space : SpaceId}
  {held : LockTable}

theorem wordsRead_descend (levels : List Level) (table : PhysicalAddress) (m : Machine) :
    Performed.wordsRead ((e.descend vaddr levels table).traceOn others m) =
      (e.probesFrom vaddr m.memory levels table).map Prod.snd := by
  induction levels generalizing table with
  | nil => rfl
  | cons l deeper ih =>
    have htrace : (Op.readWord (e.slotAddress table vaddr l)).traceOn others m = _ :=
      Op.traceOn_act others (g := id) rfl m
    have hread := Op.runOn_readWord others (e.slotAddress table vaddr l) m
    simp only [descend, probesFrom, List.map_cons]
    cases hw : m.memory.readWord (e.slotAddress table vaddr l) with
    | error r =>
      rw [hw] at hread
      rw [Op.traceOn_bind_error others hread, htrace]
      rfl
    | ok raw =>
      rw [hw] at hread
      rw [Op.traceOn_bind_ok others hread, htrace, Performed.wordsRead_append]
      apply congrArg
      dsimp only
      by_cases hv : (!(l == Level.last || e.arch.isPresent (Geometry.kind l) raw) ||
          l == Level.last) = true
      · simp only [hv, if_true, Bool.true_or]
        rfl
      · simp only [hv, Bool.false_or]
        by_cases hh : e.arch.isHuge raw = true
        · simp only [hh, if_true, Bool.false_eq_true, if_false]
          rfl
        · simp only [hh, Bool.false_eq_true, if_false]
          obtain ⟨es, hrest⟩ := e.runOn_descend vaddr others deeper (e.arch.tableAddress raw) m
          rw [Op.traceOn_bind_pure others hrest, ih]

theorem wordsRead_walkFrom (space : SpaceId) (pid : Pid) (m : Machine) :
    Performed.wordsRead ((e.walkFrom space vaddr pid).traceOn others m) =
      (e.probes vaddr m.memory (m.locks.root space)).map Prod.snd := by
  have hroot : (e.walkFrom space vaddr pid).traceOn others m = _ :=
    Op.traceOn_bind_ok others (Op.runOn_readRoot others space m) _
  rw [hroot, Performed.wordsRead_append, probes]
  split
  · rfl
  · exact e.wordsRead_descend vaddr others _ _ m

theorem wordsRead_walk (h : m.locks.Grants others pid space held) :
    Performed.wordsRead ((e.walk vaddr pid).traceOn others m) =
      (e.probes vaddr m.memory (held.root space)).map Prod.snd := by
  obtain ⟨events, hen⟩ := h
  obtain ⟨es, hrun⟩ := e.runOn_walkFrom vaddr others space pid { m with locks := held }
  have htrace : (e.walk vaddr pid).traceOn others m = _ :=
    Op.traceOn_holding_granted others _ hen rfl hrun
  have hfrom := e.wordsRead_walkFrom vaddr others space pid { m with locks := held }
  rw [htrace, List.cons_append, ← List.singleton_append, Performed.wordsRead_append,
    Performed.wordsRead_append, hfrom]
  exact List.append_nil _

theorem wordsRead_resolve (h : m.locks.Grants others pid space held) :
    Performed.wordsRead ((e.resolve vaddr pid).traceOn others m) =
      (e.probes vaddr m.memory (held.root space)).map Prod.snd := by
  obtain ⟨es, hrun⟩ := e.runOn_walk vaddr others h
  have htrace : (e.resolve vaddr pid).traceOn others m = _ :=
    Op.traceOn_bind_pure others hrun (EntrySet.ofVisits pid vaddr)
  rw [htrace, e.wordsRead_walk vaddr others h]

end Engine

end Paging
