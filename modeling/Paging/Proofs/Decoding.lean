import Paging.Entry.Codec

/-!
# What a walk asks of an entry

A walk does not decode entries; it asks three quick questions of the raw word: is it present, is it
huge, and which table does it point at. Here each answer is shown to be the decoder's own
(`isPresent_eq_view`, `isHuge_eq_view`, `toNat_tableAddress`). Tables sit at multiples of 4096 and
far enough below the end of the address space that no slot address wraps (`holdsTable_rootTable`,
`holdsTable_tableAddress`). The last section says what laying the patches over an entry comes to that
change one bit or the frame number.
-/

namespace Paging

/-! ### Fields as numbers -/

theorem BitField.toNat_get {f : BitField} (hf : f.Fits) (w : Word) :
    (f.get w).toNat = w.toNat / 2 ^ f.low % 2 ^ f.width := by
  apply Nat.eq_of_testBit_eq
  intro i
  have hbit := bit_get hf w i
  rw [Word.bit_eq_testBit, Word.bit_eq_testBit] at hbit
  rw [hbit, Nat.testBit_mod_two_pow, Nat.testBit_div_two_pow, Nat.add_comm]

theorem BitField.toNat_get_lt {f : BitField} (hf : f.Fits) (w : Word) :
    (f.get w).toNat < 2 ^ f.width := by
  rw [toNat_get hf]
  exact Nat.mod_lt _ (Nat.two_pow_pos _)

theorem BitField.toNat_get_low {width : Nat} (hw : width ≤ 64) (v : Word) :
    ((⟨0, width⟩ : BitField).get v).toNat = v.toNat % 2 ^ width := by
  rw [toNat_get ⟨Nat.zero_lt_succ _, by simpa using hw⟩, Nat.pow_zero, Nat.div_one]

namespace Architecture

theorem toNat_frameAddress {frame : Word} (h : frame.toNat < 2 ^ 52) :
    (frameAddress frame).toNat = 4096 * frame.toNat := by
  have hlt : frame.toNat * 2 ^ 12 < 2 ^ 64 := by omega
  show (frame <<< 12 : Word).toNat = 4096 * frame.toNat
  rw [UInt64.toNat_shiftLeft]
  show frame.toNat <<< 12 % 2 ^ 64 = 4096 * frame.toNat
  rw [Nat.shiftLeft_eq, Nat.mod_eq_of_lt hlt]
  omega

/-! ### Agreement with the decoder -/

theorem isPresent_eq_view (arch : Architecture) (kind : EntryKind) (raw : Word) :
    arch.isPresent kind raw = (arch.view kind raw).present := by
  cases arch with
  | x86_64 =>
    simp only [isPresent, view, X86.view]
    split <;> simp_all [EntryView.absent]
  | aarch64 =>
    simp only [isPresent, view, Arm.view]
    split <;> simp_all [EntryView.absent]
  | riscv64 variant =>
    simp only [isPresent, view, Riscv.view]
    split <;> simp_all [EntryView.absent]

theorem isHuge_eq_view (arch : Architecture) (raw : Word) :
    arch.isHuge raw = (arch.view .directory raw).isHuge .directory := by
  cases arch with
  | x86_64 =>
    simp only [isHuge, view, X86.view, X86.isHuge]
    split <;> simp_all [EntryView.absent, EntryView.isHuge]
  | aarch64 =>
    simp only [isHuge, view, Arm.view]
    by_cases h : Arm.isPresent .directory raw = true
    · simp [h, EntryView.isHuge]
    · have hv : raw.bit Arm.validBit = false := by simpa [Arm.isPresent] using h
      simp [h, hv, Arm.isBlock, EntryView.absent, EntryView.isHuge]
  | riscv64 variant =>
    simp only [isHuge, view, Riscv.view, Riscv.isLeaf]
    split <;> simp_all [EntryView.absent, EntryView.isHuge]

/-- A present entry above the last level either is huge or is no leaf. -/
theorem isHuge_eq_leaf {arch : Architecture} {raw : Word}
    (hp : (arch.view .directory raw).present = true) :
    arch.isHuge raw = (arch.view .directory raw).leaf := by
  rw [isHuge_eq_view, EntryView.isHuge, hp]
  simp

theorem present_view_zero (arch : Architecture) : (arch.view .directory 0).present = false := by
  cases arch with
  | riscv64 variant => cases variant <;> decide
  | x86_64 | aarch64 => decide

/-! ### Tables -/

/-- Where an entry that points at a table keeps its frame number. -/
def tableField : Architecture → BitField
  | .x86_64 => X86.addressField
  | .aarch64 => Arm.addressField
  | .riscv64 _ => Riscv.pfnField

theorem fits_tableField (arch : Architecture) : arch.tableField.Fits := by
  cases arch <;>
    simp [tableField, BitField.Fits, X86.addressField, Arm.addressField, Riscv.pfnField]

theorem width_tableField_le (arch : Architecture) : arch.tableField.width ≤ 48 := by
  cases arch <;> simp [tableField, X86.addressField, Arm.addressField, Riscv.pfnField]

theorem tableAddress_eq (arch : Architecture) (raw : Word) :
    arch.tableAddress raw = frameAddress (arch.tableField.get raw) := by
  cases arch <;> rfl

/-- On x86_64 the page-size bit of such an entry is clear, so that its frame number is the whole
address field. -/
theorem pfn_view_eq {arch : Architecture} {raw : Word}
    (hp : (arch.view .directory raw).present = true)
    (hl : (arch.view .directory raw).leaf = false) :
    (arch.view .directory raw).pfn = arch.tableField.get raw := by
  rw [← isPresent_eq_view] at hp
  cases arch with
  | x86_64 =>
    have h : X86.isPresent raw = true := hp
    simp only [view, X86.view, if_pos h] at hl ⊢
    have hps : raw.bit X86.pageSizeBit = false := by simpa using hl
    simp [tableField, X86.pfn, X86.isWide, hps]
  | aarch64 =>
    have h : Arm.isPresent .directory raw = true := hp
    simp only [view, Arm.view, if_pos h]
    rfl
  | riscv64 variant =>
    have h : Riscv.isPresent raw = true := hp
    simp only [view, Riscv.view, if_pos h]
    rfl

/-- An address at which a table can sit: a multiple of 4096 that leaves room for the largest
table. -/
def HoldsTable (a : PhysicalAddress) : Prop := a.toNat % 4096 = 0 ∧ a.toNat < 2 ^ 60

theorem holdsTable_frameAddress {frame : Word} (h : frame.toNat < 2 ^ 48) :
    HoldsTable (frameAddress frame) := by
  have hlt : frame.toNat < 2 ^ 52 := by omega
  have hnat := toNat_frameAddress hlt
  constructor <;> omega

theorem holdsTable_field {f : BitField} (hf : f.Fits) (hw : f.width ≤ 48) (w : Word) :
    HoldsTable (frameAddress (f.get w)) := by
  have hlt := BitField.toNat_get_lt hf w
  have hpow : 2 ^ f.width ≤ 2 ^ 48 := Nat.pow_le_pow_right (by decide) hw
  exact holdsTable_frameAddress (by omega)

theorem holdsTable_tableAddress (arch : Architecture) (raw : Word) :
    HoldsTable (arch.tableAddress raw) := by
  rw [tableAddress_eq]
  exact holdsTable_field arch.fits_tableField arch.width_tableField_le raw

theorem lt_of_mode_eq_zero {root : Word} (h : (⟨60, 4⟩ : BitField).get root = 0) :
    root.toNat < 2 ^ 60 := by
  apply Nat.lt_pow_two_of_testBit
  intro i hi
  rw [← Word.bit_eq_testBit]
  by_cases hlt : i < 64
  · have hb := BitField.bit_get (f := ⟨60, 4⟩) ⟨by decide, by decide⟩ root (i - 60)
    have hi60 : 60 + (i - 60) = i := by omega
    have hin : decide (i - 60 < 4) = true := decide_eq_true (by omega)
    rw [h, Word.bit_zero, hi60, hin, Bool.true_and] at hb
    exact hb.symm
  · exact Word.bit_of_le root (by omega)

theorem holdsTable_rootTable (arch : Architecture) (root : PhysicalAddress) :
    HoldsTable (arch.rootTable root) := by
  cases arch with
  | x86_64 =>
    exact holdsTable_field (f := X86.addressField) ⟨by decide, by decide⟩ (by decide) root.word
  | aarch64 =>
    exact holdsTable_field (f := Arm.addressField) ⟨by decide, by decide⟩ (by decide) root.word
  | riscv64 variant =>
    simp only [rootTable, Riscv.rootFrame]
    split
    · rename_i h
      have hlt := lt_of_mode_eq_zero (by simpa using h)
      have hshift : (root.word >>> 12).toNat = root.word.toNat / 2 ^ 12 := by
        rw [UInt64.toNat_shiftRight]
        exact Nat.shiftRight_eq_div_pow ..
      exact holdsTable_frameAddress (by omega)
    · exact holdsTable_field (f := ⟨0, 44⟩) ⟨by decide, by decide⟩ (by decide) root.word

theorem toNat_tableAddress {arch : Architecture} {raw : Word}
    (hp : (arch.view .directory raw).present = true)
    (hl : (arch.view .directory raw).leaf = false) :
    (arch.tableAddress raw).toNat = 4096 * (arch.view .directory raw).pfn.toNat := by
  have hlt := BitField.toNat_get_lt arch.fits_tableField raw
  have hpow : 2 ^ arch.tableField.width ≤ 2 ^ 48 :=
    Nat.pow_le_pow_right (by decide) arch.width_tableField_le
  rw [tableAddress_eq, pfn_view_eq hp hl]
  exact toNat_frameAddress (by omega)

/-! ### What patches make of an entry -/

variable (arch : Architecture) (raw : Word)

theorem encode_setBit (b : UInt32) (kind : EntryKind) :
    arch.encode raw (EntryPatch.empty.setBit b) kind = raw.withBit (b.toNat % 64) true := by
  show (EntryPatch.empty.setBit b).overlay raw = _
  rw [EntryPatch.overlay_setBit, EntryPatch.overlay_empty]

theorem encode_clearBit (b : UInt32) (kind : EntryKind) :
    arch.encode raw (EntryPatch.empty.clearBit b) kind = raw.withBit (b.toNat % 64) false := by
  show (EntryPatch.empty.clearBit b).overlay raw = _
  rw [EntryPatch.overlay_clearBit, EntryPatch.overlay_empty]

/-- In an entry of the last level the frame number has the field to itself that an entry above keeps
the frame of its table in. -/
theorem encode_withPfn (pfn : Word) :
    arch.encode raw (EntryPatch.empty.withPfn pfn) .page = arch.tableField.put raw pfn := by
  show arch.withPfnAt .page ((EntryPatch.empty.withPfn pfn).overlay raw) pfn = _
  rw [EntryPatch.overlay_withPfn, EntryPatch.overlay_empty]
  cases arch <;> rfl

end Architecture

end Paging
