import Mathlib.Data.Nat.Bitwise
import Paging.Proofs.Agreement
import Paging.Proofs.FrameNumbers

/-!
# Entries that get another memory type

A leaf keeps its memory type in bits of its own (`carriesType`), and two leaves that differ in these
alone are shown alike but for their type (`Architecture.view_of_alike`). On x86_64 the bits hang on
the kind of the entry: the third is bit 12 of a huge page, where the frame number of a base page
begins, and bit 7 of a base page, where a directory entry is marked as huge. Giving a leaf another
type therefore neither moves it nor makes it a table, and of several types given the last one counts
(`Architecture.applyMemoryType_retypes`). On T-Head cores an identifier names any bit of the entry,
of which the top four are attributes that nothing else is read from.
-/

namespace Paging

theorem BitField.has_of_lt {f : BitField} {i : Nat} (h : i < f.low) : f.has i = false := by
  rw [has, decide_eq_false (Nat.not_le.mpr h), Bool.false_and]

theorem BitField.has_of_le {f : BitField} {i : Nat} (h : f.low + f.width ≤ i) :
    f.has i = false := by
  rw [has, decide_eq_false (Nat.not_lt.mpr h), Bool.and_false]

namespace Architecture

/-- Entries name one of eight slots of a register as their memory type. -/
def selectsSlot : Architecture → Bool
  | .x86_64 | .aarch64 => true
  | .riscv64 _ => false

/-- The bits in which a leaf of the given kind keeps its memory type. -/
def carriesType (arch : Architecture) (kind : EntryKind) (i : Nat) : Bool :=
  match arch with
  | .x86_64 =>
    i == X86.writeThroughBit || i == X86.cacheDisableBit || i == X86.patBit (kind == .directory)
  | .aarch64 => Arm.attributeField.has i
  | .riscv64 .thead => (⟨60, 4⟩ : BitField).has i
  | .riscv64 .standard => false

/-- The entries differ in their memory types at most. -/
def Alike (arch : Architecture) (kind : EntryKind) (a b : Word) : Prop :=
  ∀ i, arch.carriesType kind i = false → a.bit i = b.bit i

variable {arch : Architecture} {kind : EntryKind} {raw typed : Word} {mt : UInt8}

theorem isPresent_of_leaf (h : (arch.view kind raw).leaf = true) :
    arch.isPresent kind raw = true := by
  cases hp : arch.isPresent kind raw with
  | true => rfl
  | false =>
    rw [arch.view_of_absent kind raw hp] at h
    cases h

/-! ### What is shown of entries that are alike -/

theorem isPresent_of_alike (h : arch.Alike kind typed raw) :
    arch.isPresent kind typed = arch.isPresent kind raw := by
  cases arch with
  | x86_64 => exact h X86.presentBit (by cases kind <;> rfl)
  | aarch64 =>
    have hvalid : typed.bit Arm.validBit = raw.bit Arm.validBit := h Arm.validBit rfl
    have htable : typed.bit Arm.tableBit = raw.bit Arm.tableBit := h Arm.tableBit rfl
    simp only [isPresent, Arm.isPresent, hvalid, htable]
  | riscv64 variant => exact h Riscv.validBit (by cases variant <;> rfl)

theorem isWide_of_alike (h : arch.Alike kind typed raw) :
    arch.isWide kind typed = arch.isWide kind raw := by
  cases arch with
  | x86_64 =>
    cases kind with
    | directory => exact isWide_congr (h X86.pageSizeBit rfl)
    | page => rfl
  | aarch64 | riscv64 => rfl

/-- A huge page has made room for its type, and a base page keeps it below the frame number. -/
theorem carriesType_of_frame (hleaf : (arch.view kind raw).leaf = true) {i : Nat}
    (hi : (arch.frameField kind raw).has i = true) : arch.carriesType kind i = false := by
  cases arch with
  | x86_64 =>
    cases kind with
    | directory =>
      have hp : X86.isPresent raw = true := isPresent_of_leaf hleaf
      have hwide : isWide .x86_64 .directory raw = true := by
        simp only [view, X86.view, if_pos hp] at hleaf
        exact hleaf
      rw [frameField, if_pos hwide] at hi
      have hlow : 13 ≤ i := (BitField.has_iff.mp hi).1
      simp only [carriesType, X86.writeThroughBit, X86.cacheDisableBit, X86.patBit,
        beq_self_eq_true, if_true, Bool.or_eq_false_iff, beq_eq_false_iff_ne]
      omega
    | page =>
      have hlow : 12 ≤ i := (BitField.has_iff.mp hi).1
      have hkind : (EntryKind.page == EntryKind.directory) = false := rfl
      simp only [carriesType, X86.writeThroughBit, X86.cacheDisableBit, X86.patBit, hkind,
        Bool.false_eq_true, if_false, Bool.or_eq_false_iff, beq_eq_false_iff_ne]
      omega
  | aarch64 =>
    have hlow : 12 ≤ i := (BitField.has_iff.mp hi).1
    exact BitField.has_of_le (f := Arm.attributeField) (Nat.le_trans (by decide) hlow)
  | riscv64 variant =>
    have hhigh : i < 10 + 44 := (BitField.has_iff.mp hi).2
    cases variant with
    | standard => rfl
    | thead => exact BitField.has_of_lt (f := ⟨60, 4⟩) (Nat.lt_trans hhigh (by decide))

theorem pfnAt_of_alike (h : arch.Alike kind typed raw) (hleaf : (arch.view kind raw).leaf = true) :
    arch.pfnAt kind typed = arch.pfnAt kind raw := by
  have hfield : arch.frameField kind typed = arch.frameField kind raw := by
    rw [frameField, frameField, isWide_of_alike h]
  apply Word.ext_bit
  intro i _
  rw [bit_pfnAt, bit_pfnAt, hfield]
  cases hi : (arch.frameField kind raw).has (arch.tableField.low + i) with
  | false => rfl
  | true => rw [h _ (carriesType_of_frame hleaf hi)]

theorem view_of_alike (h : arch.Alike kind typed raw) (hleaf : (arch.view kind raw).leaf = true) :
    arch.view kind typed =
      { arch.view kind raw with memoryType := (arch.view kind typed).memoryType } := by
  have hpresent := isPresent_of_leaf hleaf
  have hpresent' : arch.isPresent kind typed = true := (isPresent_of_alike h).trans hpresent
  have hpfn := pfnAt_of_alike h hleaf
  cases arch with
  | x86_64 =>
    simp only [isPresent, pfnAt] at hpresent hpresent' hpfn
    have hwritable : typed.bit X86.writableBit = raw.bit X86.writableBit :=
      h X86.writableBit (by cases kind <;> rfl)
    have huser : typed.bit X86.userBit = raw.bit X86.userBit :=
      h X86.userBit (by cases kind <;> rfl)
    have hexecute : typed.bit X86.noExecuteBit = raw.bit X86.noExecuteBit :=
      h X86.noExecuteBit (by cases kind <;> rfl)
    have haccessed : typed.bit X86.accessedBit = raw.bit X86.accessedBit :=
      h X86.accessedBit (by cases kind <;> rfl)
    have hdirty : typed.bit X86.dirtyBit = raw.bit X86.dirtyBit :=
      h X86.dirtyBit (by cases kind <;> rfl)
    have hsize : (kind == .page || typed.bit X86.pageSizeBit) =
        (kind == .page || raw.bit X86.pageSizeBit) := by
      cases kind with
      | page => rfl
      | directory => exact h X86.pageSizeBit rfl
    simp only [view, X86.view, if_pos hpresent, if_pos hpresent', hpfn, hwritable, huser, hexecute,
      haccessed, hdirty, hsize]
  | aarch64 =>
    simp only [isPresent, pfnAt] at hpresent hpresent' hpfn
    have hblock : Arm.isBlock typed = Arm.isBlock raw := by
      have hvalid : typed.bit Arm.validBit = raw.bit Arm.validBit := h Arm.validBit rfl
      have htable : typed.bit Arm.tableBit = raw.bit Arm.tableBit := h Arm.tableBit rfl
      simp only [Arm.isBlock, hvalid, htable]
    have hreadOnly : typed.bit Arm.readOnlyBit = raw.bit Arm.readOnlyBit := h Arm.readOnlyBit rfl
    have huser : typed.bit Arm.userBit = raw.bit Arm.userBit := h Arm.userBit rfl
    have hexecute : typed.bit Arm.executeNeverBit = raw.bit Arm.executeNeverBit :=
      h Arm.executeNeverBit rfl
    have haccessed : typed.bit Arm.accessedBit = raw.bit Arm.accessedBit := h Arm.accessedBit rfl
    have hdirty : typed.bit Arm.dirtyBit = raw.bit Arm.dirtyBit := h Arm.dirtyBit rfl
    simp only [view, Arm.view, if_pos hpresent, if_pos hpresent', hpfn, hblock, hreadOnly, huser,
      hexecute, haccessed, hdirty]
  | riscv64 variant =>
    simp only [isPresent, pfnAt] at hpresent hpresent' hpfn
    have hflag : ∀ i < 8, typed.bit i = raw.bit i := by
      intro i hi
      refine h i ?_
      cases variant with
      | standard => rfl
      | thead => exact BitField.has_of_lt (f := ⟨60, 4⟩) (Nat.lt_trans hi (by decide))
    have hread : typed.bit Riscv.readBit = raw.bit Riscv.readBit := hflag _ (by decide)
    have hwrite : typed.bit Riscv.writeBit = raw.bit Riscv.writeBit := hflag _ (by decide)
    have hexecute : typed.bit Riscv.executeBit = raw.bit Riscv.executeBit := hflag _ (by decide)
    have huser : typed.bit Riscv.userBit = raw.bit Riscv.userBit := hflag _ (by decide)
    have haccessed : typed.bit Riscv.accessedBit = raw.bit Riscv.accessedBit := hflag _ (by decide)
    have hdirty : typed.bit Riscv.dirtyBit = raw.bit Riscv.dirtyBit := hflag _ (by decide)
    have hleaf : Riscv.isLeaf typed = Riscv.isLeaf raw := by
      simp only [Riscv.isLeaf, hpresent, hpresent', hread, hwrite, hexecute]
    simp only [view, Riscv.view, if_pos hpresent, if_pos hpresent', hpfn, hleaf, hread, hwrite,
      hexecute, huser, haccessed, hdirty]

end Architecture

/-! ### Types as they are written and read -/

namespace MemoryType.THead

/-- The identifier that would leave the cacheable bit as it is. -/
def reported (isCacheable : Bool) : UInt8 := if isCacheable then cacheable ||| set else cacheable

theorem testBit_seven (id : UInt8) : id.toNat.testBit 7 = (id &&& set != 0) := by
  have hand : (id &&& set).toNat = (id.toNat.testBit 7).toNat * 2 ^ 7 := by
    rw [UInt8.toNat_and]
    exact Nat.and_two_pow id.toNat 7
  cases hbit : id.toNat.testBit 7 with
  | false =>
    have hzero : id &&& set = 0 := UInt8.toNat_inj.mp (by rw [hand, hbit]; rfl)
    rw [hzero]
    rfl
  | true =>
    have hne : id &&& set ≠ 0 := by
      intro hzero
      rw [hzero, hbit] at hand
      cases hand
    exact (bne_iff_ne.mpr hne).symm

end MemoryType.THead

namespace X86

variable (huge : Bool) (raw : Word) (mt mt' : UInt8)

theorem patBit_lt : patBit huge < 64 := by
  cases huge <;> decide

theorem bit_withMemoryType (i : Nat) :
    Word.bit (withMemoryType huge raw mt) i =
      if i = patBit huge then mt.toNat.testBit 2
      else if i = cacheDisableBit then mt.toNat.testBit 1
      else if i = writeThroughBit then mt.toNat.testBit 0
      else raw.bit i := by
  rw [withMemoryType, Word.bit_withBit _ (patBit_lt huge), Word.bit_withBit _ (by decide),
    Word.bit_withBit _ (by decide)]

theorem memoryType_withMemoryType :
    memoryType huge (withMemoryType huge raw mt) = mt % 8 := by
  have hthrough : Word.bit (withMemoryType huge raw mt) writeThroughBit = mt.toNat.testBit 0 := by
    rw [bit_withMemoryType]
    cases huge <;> rfl
  have hdisable : Word.bit (withMemoryType huge raw mt) cacheDisableBit = mt.toNat.testBit 1 := by
    rw [bit_withMemoryType]
    cases huge <;> rfl
  have hpat : Word.bit (withMemoryType huge raw mt) (patBit huge) = mt.toNat.testBit 2 := by
    rw [bit_withMemoryType, if_pos rfl]
  apply UInt8.toNat_inj.mp
  rw [memoryType, hthrough, hdisable, hpat, UInt8.toNat_ofNat', UInt8.toNat_mod,
    Nat.toNat_testBit, Nat.toNat_testBit, Nat.toNat_testBit]
  show _ = mt.toNat % 8
  omega

theorem withMemoryType_withMemoryType :
    withMemoryType huge (withMemoryType huge raw mt) mt' = withMemoryType huge raw mt' := by
  apply Word.ext_bit
  intro i _
  rw [bit_withMemoryType, bit_withMemoryType, bit_withMemoryType]
  split
  · rfl
  · split
    · rfl
    · split <;> rfl

end X86

namespace Arm

theorem fits_attributeField : attributeField.Fits := by
  simp [BitField.Fits, attributeField]

theorem memoryType_withMemoryType (raw : Word) (mt : UInt8) :
    memoryType (withMemoryType raw mt) = mt % 8 := by
  apply UInt8.toNat_inj.mp
  rw [memoryType, withMemoryType, BitField.get_put fits_attributeField, UInt64.toNat_toUInt8,
    BitField.toNat_get_low (by decide), UInt8.toNat_toUInt64, UInt8.toNat_mod]
  show mt.toNat % 8 % 256 = mt.toNat % 8
  omega

end Arm

namespace Riscv

theorem bit_withMemoryType (raw : Word) (id : UInt8) (i : Nat) :
    Word.bit (withMemoryType raw id) i =
      if i = id.toNat % 64 then id.toNat.testBit 7 else raw.bit i :=
  Word.bit_withBit raw (Nat.mod_lt _ (by decide)) _ i

theorem memoryType_eq (raw : Word) :
    memoryType raw = MemoryType.THead.reported (raw.bit MemoryType.THead.cacheable.toNat) := by
  rw [memoryType]
  show UInt8.ofNat (cacheableBit + 128 * (raw.bit cacheableBit).toNat) =
    MemoryType.THead.reported (raw.bit cacheableBit)
  cases raw.bit cacheableBit <;> rfl

end Riscv

namespace Architecture

variable {arch : Architecture} {kind : EntryKind} {raw typed : Word} {mt : UInt8}

/-! ### Giving a type -/

theorem alike_applyMemoryType
    (h : arch.selectsSlot = true ∨ arch = .riscv64 .thead ∧ 60 ≤ mt.toNat % 64)
    (ht : arch.applyMemoryType raw mt (kind == .directory) = .ok typed) :
    arch.Alike kind typed raw := by
  intro i hi
  cases arch with
  | x86_64 =>
    cases ht
    simp only [carriesType, Bool.or_eq_false_iff, beq_eq_false_iff_ne] at hi
    rw [X86.bit_withMemoryType, if_neg hi.2, if_neg hi.1.2, if_neg hi.1.1]
  | aarch64 =>
    cases ht
    have hout : Arm.attributeField.has i = false := hi
    rw [Arm.withMemoryType, BitField.bit_put Arm.fits_attributeField, hout]
    rfl
  | riscv64 variant =>
    obtain hslot | ⟨hthead, hposition⟩ := h
    · cases hslot
    · cases hthead
      cases ht
      have hne : i ≠ mt.toNat % 64 := by
        rintro rfl
        have hin : (⟨60, 4⟩ : BitField).has (mt.toNat % 64) = true :=
          BitField.has_iff.mpr ⟨hposition, Nat.mod_lt _ (by decide)⟩
        exact absurd (hin.symm.trans hi) (by decide)
      rw [Riscv.bit_withMemoryType, if_neg hne]

theorem exists_applyMemoryType (h : arch ≠ .riscv64 .standard) (raw : Word) (mt : UInt8)
    (huge : Bool) : ∃ typed, arch.applyMemoryType raw mt huge = .ok typed := by
  cases arch with
  | x86_64 | aarch64 => exact ⟨_, rfl⟩
  | riscv64 variant =>
    cases variant with
    | standard => exact absurd rfl h
    | thead => exact ⟨_, rfl⟩

theorem ne_standard_of_selectsSlot (h : arch.selectsSlot = true) : arch ≠ .riscv64 .standard := by
  rintro rfl
  cases h

theorem extractMemoryType_applied (h : arch.selectsSlot = true) {huge : Bool}
    (ht : arch.applyMemoryType raw mt huge = .ok typed) :
    arch.extractMemoryType typed huge = .ok (mt % 8) := by
  cases arch with
  | x86_64 =>
    cases ht
    rw [extractMemoryType, X86.memoryType_withMemoryType]
  | aarch64 =>
    cases ht
    rw [extractMemoryType, Arm.memoryType_withMemoryType]
  | riscv64 variant => cases h

theorem applyMemoryType_again (h : arch.selectsSlot = true) {huge : Bool}
    (ht : arch.applyMemoryType raw mt huge = .ok typed) (mt' : UInt8) :
    arch.applyMemoryType typed mt' huge = arch.applyMemoryType raw mt' huge := by
  cases arch with
  | x86_64 =>
    cases ht
    rw [applyMemoryType, X86.withMemoryType_withMemoryType]
    rfl
  | aarch64 =>
    cases ht
    simp only [applyMemoryType, Arm.withMemoryType, BitField.put_put Arm.fits_attributeField]
  | riscv64 variant => cases h

/-- The type of the entry once it was given one is all that the decoder shows to have changed. -/
theorem view_applied (hleaf : (arch.view kind raw).leaf = true)
    (h : arch.selectsSlot = true ∨ arch = .riscv64 .thead ∧ 60 ≤ mt.toNat % 64)
    (ht : arch.applyMemoryType raw mt (kind == .directory) = .ok typed) {seen : UInt8}
    (hseen : arch.extractMemoryType typed (kind == .directory) = .ok seen) :
    arch.view kind typed = { arch.view kind raw with memoryType := some seen } := by
  have hview := view_of_alike (alike_applyMemoryType h ht) hleaf
  have hleaf' : (arch.view kind typed).leaf = true := by rw [hview, hleaf]
  rw [hview, memoryType_view, if_pos hleaf', hseen]
  rfl

open MemoryType.THead in
/-- What a new memory type makes of an entry. -/
structure Retypes (arch : Architecture) (raw : Word) : Prop where
  /-- The low three bits of the type count. -/
  slot : arch.selectsSlot = true → ∀ kind mt, (arch.view kind raw).leaf = true → ∃ typed,
    arch.applyMemoryType raw mt (kind == .directory) = .ok typed ∧
    arch.view kind typed = { arch.view kind raw with memoryType := some (mt % 8) }
  again : arch.selectsSlot = true → ∀ huge mt, ∃ typed,
    arch.applyMemoryType raw mt huge = .ok typed ∧
    ∀ mt', arch.applyMemoryType typed mt' huge = arch.applyMemoryType raw mt' huge
  /-- An identifier is a bit position and whether to set the bit. -/
  position : arch = .riscv64 .thead → ∀ huge (id : UInt8), ∃ typed,
    arch.applyMemoryType raw id huge = .ok typed ∧
    (∀ i, i ≠ id.toNat % 64 → typed.bit i = raw.bit i) ∧
    typed.bit (id.toNat % 64) = (id &&& set != 0)
  shown : arch = .riscv64 .thead → ∀ kind (id : UInt8), 60 ≤ id.toNat % 64 → ∃ typed,
    arch.applyMemoryType raw id (kind == .directory) = .ok typed ∧
    arch.extractMemoryType typed (kind == .directory) =
      .ok (reported (typed.bit cacheable.toNat)) ∧
    ((arch.view kind raw).leaf = true → arch.view kind typed =
      { arch.view kind raw with memoryType := some (reported (typed.bit cacheable.toNat)) })

theorem applyMemoryType_retypes (arch : Architecture) (raw : Word) : arch.Retypes raw where
  slot h kind mt hleaf := by
    obtain ⟨typed, ht⟩ :=
      exists_applyMemoryType (ne_standard_of_selectsSlot h) raw mt (kind == .directory)
    exact ⟨typed, ht, view_applied hleaf (.inl h) ht (extractMemoryType_applied h ht)⟩
  again h huge mt := by
    obtain ⟨typed, ht⟩ := exists_applyMemoryType (ne_standard_of_selectsSlot h) raw mt huge
    exact ⟨typed, ht, applyMemoryType_again h ht⟩
  position h huge id := by
    subst h
    refine ⟨_, rfl, fun i hi => ?_, ?_⟩
    · rw [Riscv.bit_withMemoryType, if_neg hi]
    · rw [Riscv.bit_withMemoryType, if_pos rfl, MemoryType.THead.testBit_seven]
  shown h kind id hid := by
    subst h
    have hseen : ∀ typed, extractMemoryType (.riscv64 .thead) typed (kind == .directory) =
        .ok (MemoryType.THead.reported (typed.bit MemoryType.THead.cacheable.toNat)) :=
      fun typed => congrArg Except.ok (Riscv.memoryType_eq typed)
    exact ⟨_, rfl, hseen _, fun hleaf => view_applied hleaf (.inr ⟨rfl, hid⟩) rfl (hseen _)⟩

/-- The third bit of the type of a huge page is bit 12, next to its frame number. -/
example : applyMemoryType .x86_64 0x402000e7 4 true = .ok 0x402010e7 := by rfl

end Architecture

end Paging
