import Paging.Proofs.Decoding
import Paging.Proofs.Overlap
import Paging.Proofs.Walking

/-!
# Slots

Tables sit at multiples of 4096 and entries take eight bytes, so every slot of a walk is a multiple
of eight, whatever the geometry and whatever the tables hold (`Engine.faithful_visited`). Two words
at such addresses are either one word or do not overlap (`Memory.overlap_of_aligned`).
-/

namespace Paging

/-- Eight bytes from here on are one unit of memory. -/
def PhysicalAddress.Aligned (a : PhysicalAddress) : Prop := a.toNat % 8 = 0

theorem PhysicalAddress.alignedTo_iff {a : PhysicalAddress} : a.alignedTo 8 = true ↔ a.Aligned := by
  rw [Address.alignedTo, beq_iff_eq, ← UInt64.toNat_inj, UInt64.toNat_mod]
  exact Iff.rfl

theorem PhysicalAddress.Aligned.alignedTo {a : PhysicalAddress} (h : a.Aligned) :
    a.alignedTo 8 = true := alignedTo_iff.mpr h

theorem Architecture.HoldsTable.aligned {a : PhysicalAddress} (h : HoldsTable a) : a.Aligned := by
  have := h.1
  unfold PhysicalAddress.Aligned
  omega

namespace Engine

variable (e : Engine) (vaddr : VirtualAddress)

/-- The sum wraps at a multiple of eight. -/
theorem aligned_slotAddress {table : PhysicalAddress} (h : table.Aligned) (l : Level) :
    (e.slotAddress table vaddr l).Aligned := by
  have hsum : (e.slotAddress table vaddr l).toNat =
      (table.toNat + e.geometry.index vaddr l * 8 % 2 ^ 64) % 2 ^ 64 := by
    show (table.word + UInt64.ofNat (e.geometry.index vaddr l * entrySize)).toNat = _
    rw [UInt64.toNat_add, UInt64.toNat_ofNat']
    rfl
  unfold PhysicalAddress.Aligned at h ⊢
  omega

/-- A visit as a walk over this memory pays it. -/
structure Faithful (memory : Memory) (v : Visit) : Prop where
  aligned : v.slot.Aligned
  read : memory.readWord v.slot = .ok v.raw
  valid_eq : v.valid = (v.level == Level.last || e.arch.isPresent (Geometry.kind v.level) v.raw)

theorem faithful_descent {memory : Memory} {levels : List Level} {table : PhysicalAddress}
    {visits : List Visit} (h : table.Aligned)
    (hv : e.descent vaddr memory levels table = .ok visits) : ∀ v ∈ visits, e.Faithful memory v := by
  induction levels generalizing table visits with
  | nil =>
    cases hv
    exact nofun
  | cons l deeper ih =>
    have hslot := e.aligned_slotAddress vaddr h l
    simp only [descent] at hv
    cases hw : memory.readWord (e.slotAddress table vaddr l) with
    | error r =>
      rw [hw] at hv
      cases hv
    | ok raw =>
      simp only [hw] at hv
      split at hv
      · cases hv
        intro v hm
        rw [List.mem_singleton.mp hm]
        exact ⟨hslot, hw, rfl⟩
      · cases hd : e.descent vaddr memory deeper (e.arch.tableAddress raw) with
        | error err =>
          rw [hd] at hv
          cases hv
        | ok rest =>
          rw [hd] at hv
          cases hv
          intro v hm
          rcases List.mem_cons.mp hm with rfl | hm
          · exact ⟨hslot, hw, rfl⟩
          · exact ih (e.arch.holdsTable_tableAddress raw).aligned hd v hm

theorem faithful_visited {memory : Memory} {root : PhysicalAddress} {visits : List Visit}
    (hv : e.visited vaddr memory root = .ok visits) : ∀ v ∈ visits, e.Faithful memory v := by
  unfold visited at hv
  split at hv
  · cases hv
    exact nofun
  · exact e.faithful_descent vaddr (e.arch.holdsTable_rootTable root).aligned hv

end Engine

namespace Memory

/-- However a backing lays its addresses out, it keeps the distance of two of them, up to a multiple
of `2 ^ 64`. -/
theorem overlap_of_aligned (m : Memory) {a b : PhysicalAddress} (ha : a.Aligned) (hb : b.Aligned)
    (hne : a ≠ b) : m.overlap a b = false := by
  have hnat : a.toNat ≠ b.toNat := by
    intro h
    obtain ⟨a⟩ := a
    obtain ⟨b⟩ := b
    exact hne (congrArg _ (UInt64.toNat_inj.mp h))
  unfold overlap
  cases hi : m.inside? a 8 with
  | none => rfl
  | some i =>
    cases hj : m.inside? b 8 with
    | none => rfl
    | some j =>
      have hi := (inside?_eq_some hi).1
      have hj := (inside?_eq_some hj).1
      have hapart : i + 8 ≤ j ∨ j + 8 ≤ i := by
        unfold PhysicalAddress.Aligned at ha hb
        cases hback : m.backing with
        | emulated cursor | file mode =>
          rw [hback] at hi hj
          cases hi
          cases hj
          omega
        | window base =>
          rw [hback] at hi hj
          simp only [position?] at hi hj
          split at hi <;> cases hi
          split at hj <;> cases hj
          omega
        | direct offset =>
          rw [hback] at hi hj
          simp only [position?, Option.some.injEq, UInt64.toNat_add] at hi hj
          have hla := a.word.toNat_lt
          have hlb := b.word.toNat_lt
          have hlo := offset.toNat_lt
          simp only [Address.toNat] at ha hb hnat
          omega
      simp only [Bool.and_eq_false_iff, decide_eq_false_iff_not]
      omega

end Memory

end Paging
