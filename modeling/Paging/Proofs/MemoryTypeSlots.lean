import Paging.Engine.MemoryTypes
import Paging.Proofs.Decoding
import Paging.Proofs.Running

/-!
# Slots of the memory-type register

Setting a slot reads the register as a table, changes one slot of it and writes the whole back. On
x86_64 and AArch64 nothing else in the register changes, since the slots do not overlap. The table
of a T-Head core has no slots and is made without reading the register, so that writing it back
clears the register, unless there is none (`Engine.setMt_sets_slot_iff`).
-/

namespace Paging

namespace MemoryTypeTable

variable {t : MemoryTypeTable} {index j : UInt8} {slot : BitField}

/-! ### One slot -/

theorem fits_slot {layout : SlotLayout} (h : slot? layout index = some slot) : slot.Fits := by
  cases layout with
  | pat | mair =>
    cases h
    constructor <;> simp only <;> omega
  | inEntry => cases h

theorem slot?_congr (layout : SlotLayout) (h : j.toNat % 8 = index.toNat % 8) :
    slot? layout j = slot? layout index := by
  simp only [slot?, h]

/-- Slots take a byte each, or part of one. -/
theorem not_has_slot {layout : SlotLayout} {other : BitField} (hs : slot? layout index = some slot)
    (ho : slot? layout j = some other) (h : j.toNat % 8 ≠ index.toNat % 8) {i : Nat}
    (hi : i < other.width) : slot.has (other.low + i) = false := by
  cases layout with
  | pat | mair =>
    cases hs
    cases ho
    simp only [BitField.has] at hi ⊢
    grind
  | inEntry => cases hs

theorem set_of_slot (hs : slot? t.layout index = some slot) (mt : UInt8) :
    t.set index mt = ⟨t.layout, slot.put t.value mt.toUInt64⟩ := by
  simp only [set, hs]

/-- The slot keeps the low bits, as many as it has. -/
theorem get_set_same (hs : slot? t.layout index = some slot) (h : j.toNat % 8 = index.toNat % 8)
    (mt : UInt8) : (t.set index mt).get j = UInt8.ofNat (mt.toNat % 2 ^ slot.width) := by
  have hfits := fits_slot hs
  have hwidth : slot.width ≤ 64 := Nat.le_trans (Nat.le_add_left ..) hfits.2
  have hj : slot? t.layout j = some slot := by rw [slot?_congr t.layout h, hs]
  rw [set_of_slot hs]
  simp only [get, hj]
  rw [BitField.get_put hfits]
  apply UInt8.toNat_inj.mp
  rw [UInt64.toNat_toUInt8, BitField.toNat_get_low hwidth, UInt8.toNat_ofNat', UInt8.toNat_toUInt64]

theorem get_set_other (h : j.toNat % 8 ≠ index.toNat % 8) (mt : UInt8) :
    (t.set index mt).get j = t.get j := by
  cases hs : slot? t.layout index with
  | none => simp only [set, hs]
  | some slot =>
    rw [set_of_slot hs]
    simp only [get]
    cases ho : slot? t.layout j with
    | none => rfl
    | some other =>
      have hget : other.get (slot.put t.value mt.toUInt64) = other.get t.value := by
        apply Word.ext_bit
        intro i _
        rw [BitField.bit_get (fits_slot ho), BitField.bit_get (fits_slot ho),
          BitField.bit_put (fits_slot hs)]
        by_cases hi : i < other.width
        · rw [not_has_slot hs ho h hi]
          rfl
        · rw [decide_eq_false hi, Bool.false_and, Bool.false_and]
      simp only [hget]

end MemoryTypeTable

namespace Engine

variable {e : Engine} {others : Bystander} {m : Machine} {index mt : UInt8} {v : Word}
  {t : MemoryTypeTable}

/-! ### Runs -/

theorem runOn_memoryTypes (h : m.register = some v) :
    e.memoryTypes.runOn others m = some ⟨[], m, .ok v⟩ := by
  have hread : Op.readRegister.runOn others m = some ⟨[], m, .ok m.register⟩ := rfl
  rw [memoryTypes, Op.runOn_bind_ok others hread, h]
  rfl

theorem runOn_memoryTypes_missing (h : m.register = none) :
    e.memoryTypes.runOn others m =
      some ⟨[.notice (.noRegister e.arch)], m, .error (.unsupported "memory types")⟩ := by
  have hread : Op.readRegister.runOn others m = some ⟨[], m, .ok m.register⟩ := rfl
  rw [memoryTypes, Op.runOn_bind_ok others hread, h]
  rfl

theorem runOn_memoryTypeTable (ha : e.arch ≠ .riscv64 .thead) (hv : m.register = some v)
    (ht : MemoryTypeTable.ofRegister e.arch v = .ok t) :
    e.memoryTypeTable.runOn others m = some ⟨[], m, .ok t⟩ := by
  rw [memoryTypeTable, if_neg ha, Op.runOn_bind_ok others (runOn_memoryTypes hv)]
  show Option.map _ ((Op.ofExcept (MemoryTypeTable.ofRegister e.arch v)).runOn others m) = _
  rw [ht]
  rfl

theorem runOn_memoryTypeTable_missing (ha : e.arch ≠ .riscv64 .thead) (h : m.register = none) :
    e.memoryTypeTable.runOn others m =
      some ⟨[.notice (.noRegister e.arch)], m, .error (.unsupported "memory types")⟩ := by
  rw [memoryTypeTable, if_neg ha, Op.runOn_bind_error others (runOn_memoryTypes_missing h)]

theorem runOn_memoryTypeTable_thead (ha : e.arch = .riscv64 .thead) :
    e.memoryTypeTable.runOn others m = some ⟨[], m, .ok ⟨.inEntry, 0⟩⟩ := by
  rw [memoryTypeTable, if_pos ha, ha]
  rfl

theorem runOn_memoryTypeTable_standard (ha : e.arch = .riscv64 .standard)
    (hv : m.register = some v) :
    e.memoryTypeTable.runOn others m =
      some ⟨[.notice .noRegisterOnRiscv], m, .error (.unsupported "memory-type register")⟩ := by
  have hne : e.arch ≠ .riscv64 .thead := by
    rw [ha]
    exact nofun
  rw [memoryTypeTable, if_neg hne, Op.runOn_bind_ok others (runOn_memoryTypes hv), ha]
  rfl

theorem runOn_getMt (ht : e.memoryTypeTable.runOn others m = some ⟨[], m, .ok t⟩) :
    (e.getMt index).runOn others m = some ⟨[], m, .ok (t.get index)⟩ := by
  rw [getMt, Op.runOn_bind_ok others ht]
  rfl

theorem runOn_setMt (ht : e.memoryTypeTable.runOn others m = some ⟨[], m, .ok t⟩)
    (hv : m.register = some v) :
    (e.setMt index mt).runOn others m =
      some ⟨[], { m with register := some (t.set index mt).value }, .ok ()⟩ := by
  have hwrite : (Op.writeRegister (t.set index mt).value).runOn others m =
      some ⟨[], { m with register := m.register.map fun _ => (t.set index mt).value }, .ok ()⟩ :=
    rfl
  rw [hv, Option.map_some] at hwrite
  rw [setMt, Op.runOn_bind_ok others ht, setMemoryTypes,
    Op.runOn_bind_ok others (runOn_memoryTypes hv), hwrite]
  rfl

/-- Without a register, and on standard RISC-V, nothing is written. -/
theorem runOn_setMt_refused (h : m.register = none ∨ e.arch = .riscv64 .standard) :
    ∃ es err, (e.setMt index mt).runOn others m = some ⟨es, m, .error err⟩ := by
  cases hv : m.register with
  | none =>
    by_cases ha : e.arch = .riscv64 .thead
    · rw [setMt, Op.runOn_bind_ok others (runOn_memoryTypeTable_thead ha), setMemoryTypes,
        Op.runOn_bind_error others (runOn_memoryTypes_missing hv)]
      exact ⟨_, _, rfl⟩
    · rw [setMt, Op.runOn_bind_error others (runOn_memoryTypeTable_missing ha hv)]
      exact ⟨_, _, rfl⟩
  | some v =>
    have ha : e.arch = .riscv64 .standard := h.resolve_left (by rw [hv]; exact nofun)
    rw [setMt, Op.runOn_bind_error others (runOn_memoryTypeTable_standard ha hv)]
    exact ⟨_, _, rfl⟩

/-! ### What setting a slot does -/

/-- The bits that count of a slot, numbered modulo eight: the low three of its byte on x86_64 and
the whole byte on AArch64. -/
def slotBits? (arch : Architecture) (index : UInt8) : Option BitField :=
  match arch with
  | .x86_64 => some ⟨8 * (index.toNat % 8), 3⟩
  | .aarch64 => some ⟨8 * (index.toNat % 8), 8⟩
  | .riscv64 _ => none

/-- The words differ at most in the slot, which now holds the low bits of `mt`. -/
structure SlotSet (arch : Architecture) (index mt : UInt8) (before after : Word) : Prop where
  outside : ∀ i, (∀ slot, slotBits? arch index = some slot → slot.has i = false) →
    after.bit i = before.bit i
  inside : ∀ slot, slotBits? arch index = some slot → ∀ i < slot.width,
    after.bit (slot.low + i) = mt.toNat.testBit i
  slotless : slotBits? arch index = none → after = before

/-- The run of a request to set a slot came to what it should. -/
structure SetsSlot (e : Engine) (others : Bystander) (m : Machine) (index mt : UInt8)
    (eff : Effect (Except Error Unit)) : Prop where
  /-- Nothing but the register ever changes. -/
  elsewhere : eff.machine = { m with register := eff.machine.register }
  succeeds : eff.reply = .ok () ↔ m.register ≠ none ∧ e.arch ≠ .riscv64 .standard
  refused : ∀ err, eff.reply = .error err → eff.machine.register = m.register
  written : eff.reply = .ok () → ∃ before after, m.register = some before ∧
    eff.machine.register = some after ∧ SlotSet e.arch index mt before after
  readBack : eff.reply = .ok () → ∀ slot, slotBits? e.arch index = some slot →
    (e.getMt index).runOn others eff.machine =
      some ⟨[], eff.machine, .ok (UInt8.ofNat (mt.toNat % 2 ^ slot.width))⟩
  otherSlots : eff.reply = .ok () → ∀ slot, slotBits? e.arch index = some slot →
    ∀ j : UInt8, j.toNat % 8 ≠ index.toNat % 8 → ∃ held,
      (e.getMt j).runOn others m = some ⟨[], m, .ok held⟩ ∧
      (e.getMt j).runOn others eff.machine = some ⟨[], eff.machine, .ok held⟩

variable {slot : BitField}

theorem slot?_of_slotBits {arch : Architecture} (hs : slotBits? arch index = some slot) :
    arch ≠ .riscv64 .thead ∧ arch ≠ .riscv64 .standard ∧
      ∃ layout, (∀ j, MemoryTypeTable.slot? layout j = slotBits? arch j) ∧
        ∀ v, MemoryTypeTable.ofRegister arch v = .ok ⟨layout, v⟩ := by
  cases arch with
  | x86_64 => exact ⟨nofun, nofun, .pat, fun _ => rfl, fun _ => rfl⟩
  | aarch64 => exact ⟨nofun, nofun, .mair, fun _ => rfl, fun _ => rfl⟩
  | riscv64 variant => cases hs

theorem slotSet_put {arch : Architecture} (hs : slotBits? arch index = some slot)
    (hf : slot.Fits) (v : Word) (mt : UInt8) :
    SlotSet arch index mt v (slot.put v mt.toUInt64) where
  outside i hi := by
    rw [BitField.bit_put hf, hi slot hs]
    rfl
  inside slot' hs' i hi := by
    cases hs.symm.trans hs'
    have hin : slot.has (slot.low + i) = true := BitField.has_iff.mpr ⟨by omega, by omega⟩
    rw [BitField.bit_put hf, hin, if_pos rfl, Nat.add_sub_cancel_left, Word.bit_eq_testBit,
      UInt8.toNat_toUInt64]
  slotless hnone := by
    rw [hs] at hnone
    cases hnone

theorem setsSlot_of_refused {es : List Event} {err : Error}
    (h : m.register = none ∨ e.arch = .riscv64 .standard) :
    SetsSlot e others m index mt ⟨es, m, .error err⟩ where
  elsewhere := rfl
  succeeds := iff_of_false nofun fun hboth => h.elim hboth.1 hboth.2
  refused _ _ := rfl
  written := nofun
  readBack := nofun
  otherSlots := nofun

theorem setsSlot_of_slot (hs : slotBits? e.arch index = some slot) (hv : m.register = some v) :
    ∃ eff, (e.setMt index mt).runOn others m = some eff ∧ SetsSlot e others m index mt eff := by
  obtain ⟨hthead, hstandard, layout, hslots, htable⟩ := slot?_of_slotBits hs
  have hslot : MemoryTypeTable.slot? layout index = some slot := (hslots index).trans hs
  have hbefore : e.memoryTypeTable.runOn others m = some ⟨[], m, .ok ⟨layout, v⟩⟩ :=
    runOn_memoryTypeTable hthead hv (htable v)
  have hafter : ∀ m' : Machine,
      m'.register = some ((⟨layout, v⟩ : MemoryTypeTable).set index mt).value →
      e.memoryTypeTable.runOn others m' =
        some ⟨[], m', .ok ((⟨layout, v⟩ : MemoryTypeTable).set index mt)⟩ := by
    intro m' hm'
    refine runOn_memoryTypeTable hthead hm' ?_
    rw [htable, MemoryTypeTable.set_of_slot hslot]
  refine ⟨_, runOn_setMt hbefore hv, ?_⟩
  constructor
  case elsewhere => rfl
  case succeeds =>
    refine iff_of_true rfl ⟨?_, hstandard⟩
    rw [hv]
    exact nofun
  case refused => exact nofun
  case written =>
    intro _
    refine ⟨v, _, hv, rfl, ?_⟩
    rw [MemoryTypeTable.set_of_slot hslot]
    exact slotSet_put hs (MemoryTypeTable.fits_slot hslot) v mt
  case readBack =>
    intro _ slot' hs'
    cases hs.symm.trans hs'
    rw [runOn_getMt (hafter _ rfl), MemoryTypeTable.get_set_same hslot rfl]
  case otherSlots =>
    intro _ _ _ j hj
    refine ⟨(⟨layout, v⟩ : MemoryTypeTable).get j, runOn_getMt hbefore, ?_⟩
    rw [runOn_getMt (hafter _ rfl), MemoryTypeTable.get_set_other hj]

theorem runOn_setMt_thead (ha : e.arch = .riscv64 .thead) (hv : m.register = some v) :
    (e.setMt index mt).runOn others m = some ⟨[], { m with register := some 0 }, .ok ()⟩ :=
  runOn_setMt (runOn_memoryTypeTable_thead ha) hv

theorem eq_thead_of_slotless (hs : slotBits? e.arch index = none)
    (hstandard : e.arch ≠ .riscv64 .standard) : e.arch = .riscv64 .thead := by
  revert hs hstandard
  cases e.arch with
  | x86_64 | aarch64 => exact nofun
  | riscv64 variant =>
    cases variant with
    | standard => exact fun _ h => absurd rfl h
    | thead => exact fun _ _ => rfl

theorem setsSlot_of_zero (ha : e.arch = .riscv64 .thead) (hv : m.register = some 0) :
    SetsSlot e others m index mt ⟨[], { m with register := some 0 }, .ok ()⟩ := by
  have hs : ∀ j, slotBits? e.arch j = none := fun j => by rw [ha, slotBits?]
  constructor
  case elsewhere => rfl
  case succeeds =>
    rw [hv, ha]
    exact iff_of_true rfl ⟨nofun, nofun⟩
  case refused => exact nofun
  case written =>
    exact fun _ => ⟨0, 0, hv, rfl, fun _ _ => rfl,
      fun _ hsome => absurd ((hs index).symm.trans hsome) nofun, fun _ => rfl⟩
  case readBack => exact fun _ _ hsome => absurd ((hs index).symm.trans hsome) nofun
  case otherSlots => exact fun _ _ hsome => absurd ((hs index).symm.trans hsome) nofun

variable (e others m index mt)

theorem setMt_sets_slot_iff :
    (∃ eff, (e.setMt index mt).runOn others m = some eff ∧ SetsSlot e others m index mt eff) ↔
      (e.arch = .riscv64 .thead → m.register = none ∨ m.register = some 0) := by
  by_cases hr : m.register = none ∨ e.arch = .riscv64 .standard
  · obtain ⟨es, err, hrun⟩ := runOn_setMt_refused (e := e) hr
    refine iff_of_true ⟨_, hrun, setsSlot_of_refused hr⟩ fun ha => hr.imp_right fun hstandard => ?_
    rw [ha] at hstandard
    cases hstandard
  · obtain ⟨hregister, hstandard⟩ := not_or.mp hr
    obtain ⟨v, hv⟩ := Option.ne_none_iff_exists'.mp hregister
    cases hs : slotBits? e.arch index with
    | some slot =>
      refine iff_of_true (setsSlot_of_slot hs hv) fun ha => ?_
      exact absurd ha (slot?_of_slotBits hs).1
    | none =>
      have ha := eq_thead_of_slotless hs hstandard
      constructor
      · rintro ⟨eff, hrun, hset⟩ _
        rw [runOn_setMt_thead ha hv] at hrun
        cases hrun
        obtain ⟨before, after, hbefore, hafter, hslot⟩ := hset.written rfl
        cases hafter
        exact .inr (hbefore.trans (congrArg some (hslot.slotless hs).symm))
      · intro h
        have hzero : m.register = some 0 := (h ha).resolve_left hregister
        exact ⟨_, runOn_setMt_thead ha hv, setsSlot_of_zero ha hzero⟩

/-- A register with a type in each of its eight slots, all of which are lost. -/
theorem setMt_clears_register :
    let e : Engine := ⟨.riscv64 .thead, NamedGeometry.sv39.layout⟩
    let m : Machine := ⟨.empty, ⟨.emulated 0x1000, #[]⟩, .custom, some 0x0007040600070406⟩
    ∃ eff, (e.setMt 1 1).runOn .yielding m = some eff ∧ eff.reply = .ok () ∧
      eff.machine.register = some 0 ∧ ¬ SetsSlot e .yielding m 1 1 eff := by
  intro e m
  refine ⟨_, runOn_setMt_thead rfl rfl, rfl, rfl, fun hset => ?_⟩
  obtain ⟨before, after, hbefore, hafter, hslot⟩ := hset.written rfl
  cases hbefore
  cases hafter
  have hsame : (0 : Word) = 0x0007040600070406 := hslot.slotless rfl
  exact absurd hsame (by decide)

end Engine

end Paging
