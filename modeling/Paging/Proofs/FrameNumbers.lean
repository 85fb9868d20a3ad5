import Paging.Proofs.Decoding

/-!
# Frame numbers in entries

An entry keeps its frame number in a field of its own, which one bit decides on x86_64: in a huge
page the field begins above the PAT selector, so that the number is even (`frameField`). Bit `i` of
the number is always the same bit of the entry. Laying a patch over an entry changes the bits that
the patch sets and clears, and then the field that the entry has by then, and nothing else
(`encode_overlays`).
-/

namespace Paging.Architecture

/-- How many bits of a frame number an entry keeps. -/
def pfnWidth : Architecture → Nat
  | .x86_64 => 40
  | .aarch64 => 36
  | .riscv64 _ => 44

/-- The entry is one of x86_64 above the last level whose page-size bit is set. -/
def isWide (arch : Architecture) (kind : EntryKind) (raw : Word) : Bool :=
  arch == .x86_64 && kind == .directory && raw.bit X86.pageSizeBit

def frameField (arch : Architecture) (kind : EntryKind) (raw : Word) : BitField :=
  if arch.isWide kind raw then X86.hugeAddressField else arch.tableField

variable {arch : Architecture} {kind : EntryKind} {raw : Word}

theorem width_tableField (arch : Architecture) : arch.tableField.width = arch.pfnWidth := by
  cases arch <;> rfl

theorem low_tableField_of_wide (h : arch.isWide kind raw = true) : arch.tableField.low = 12 := by
  cases arch with
  | x86_64 => rfl
  | aarch64 | riscv64 => simp [isWide] at h

theorem fits_hugeAddressField : X86.hugeAddressField.Fits := by
  simp [BitField.Fits, X86.hugeAddressField]

/-! ### The field by itself -/

theorem withPfnAt_of_wide (h : arch.isWide kind raw = true) (pfn : Word) :
    arch.withPfnAt kind raw pfn = X86.hugeAddressField.put raw (pfn >>> 1) := by
  cases arch with
  | x86_64 => exact if_pos h
  | aarch64 | riscv64 => simp [isWide] at h

theorem withPfnAt_of_not_wide (h : arch.isWide kind raw = false) (pfn : Word) :
    arch.withPfnAt kind raw pfn = arch.tableField.put raw pfn := by
  cases arch with
  | x86_64 => exact if_neg (Bool.eq_false_iff.mp h)
  | aarch64 | riscv64 => rfl

theorem pfnAt_of_wide (h : arch.isWide kind raw = true) :
    arch.pfnAt kind raw = X86.hugeAddressField.get raw <<< 1 := by
  cases arch with
  | x86_64 => exact if_pos h
  | aarch64 | riscv64 => simp [isWide] at h

theorem pfnAt_of_not_wide (h : arch.isWide kind raw = false) :
    arch.pfnAt kind raw = arch.tableField.get raw := by
  cases arch with
  | x86_64 => exact if_neg (Bool.eq_false_iff.mp h)
  | aarch64 | riscv64 => rfl

theorem bit_withPfnAt (arch : Architecture) (kind : EntryKind) (raw pfn : Word) (i : Nat) :
    Word.bit (arch.withPfnAt kind raw pfn) i =
      if (arch.frameField kind raw).has i then pfn.bit (i - arch.tableField.low)
      else raw.bit i := by
  cases h : arch.isWide kind raw with
  | true =>
    have hshift : ∀ j, Word.bit (pfn >>> 1) j = pfn.bit (1 + j) :=
      fun j => Word.bit_shiftRight pfn (k := 1) (by decide) j
    rw [withPfnAt_of_wide h, BitField.bit_put fits_hugeAddressField, frameField, if_pos h, hshift,
      low_tableField_of_wide h]
    cases hi : X86.hugeAddressField.has i with
    | false => rfl
    | true =>
      have hlow : 13 ≤ i := (BitField.has_iff.mp hi).1
      rw [if_pos rfl, if_pos rfl]
      congr 1
      show 1 + (i - 13) = i - 12
      omega
  | false =>
    rw [withPfnAt_of_not_wide h, BitField.bit_put arch.fits_tableField, frameField, h]
    rfl

theorem bit_pfnAt (arch : Architecture) (kind : EntryKind) (raw : Word) (i : Nat) :
    Word.bit (arch.pfnAt kind raw) i =
      ((arch.frameField kind raw).has (arch.tableField.low + i) &&
        raw.bit (arch.tableField.low + i)) := by
  cases h : arch.isWide kind raw with
  | true =>
    have hshift : Word.bit (X86.hugeAddressField.get raw <<< 1) i =
        (decide (i < 64) && decide (1 ≤ i) && Word.bit (X86.hugeAddressField.get raw) (i - 1)) :=
      Word.bit_shiftLeft _ (k := 1) (by decide) i
    rw [pfnAt_of_wide h, hshift, BitField.bit_get fits_hugeAddressField, frameField, if_pos h,
      low_tableField_of_wide h]
    simp only [BitField.has, X86.hugeAddressField]
    grind
  | false =>
    rw [pfnAt_of_not_wide h, BitField.bit_get arch.fits_tableField, frameField, h]
    simp [BitField.has]

theorem low_le_frameField (arch : Architecture) (kind : EntryKind) (raw : Word) :
    arch.tableField.low ≤ (arch.frameField kind raw).low := by
  cases h : arch.isWide kind raw with
  | true =>
    rw [frameField, if_pos h, low_tableField_of_wide h]
    exact Nat.le_succ 12
  | false =>
    rw [frameField, h]
    exact Nat.le_refl _

/-! ### The page-size bit decides the field and is not in it -/

theorem isWide_congr {raw' : Word} (h : raw.bit X86.pageSizeBit = raw'.bit X86.pageSizeBit) :
    arch.isWide kind raw = arch.isWide kind raw' := by
  rw [isWide, isWide, h]

theorem frameField_congr {raw' : Word} (h : raw.bit X86.pageSizeBit = raw'.bit X86.pageSizeBit) :
    arch.frameField kind raw = arch.frameField kind raw' := by
  rw [frameField, frameField, isWide_congr h]

theorem not_has_pageSizeBit (arch : Architecture) (kind : EntryKind) (raw : Word) :
    (arch.frameField kind raw).has X86.pageSizeBit = false := by
  unfold frameField
  split
  · rfl
  · cases arch <;> rfl

/-- Whichever the field is, bit 20 is in it. -/
theorem has_frameField (arch : Architecture) (kind : EntryKind) (raw : Word) :
    (arch.frameField kind raw).has 20 = true := by
  unfold frameField
  split
  · rfl
  · cases arch <;> rfl

theorem pageSizeBit_withPfnAt (arch : Architecture) (kind : EntryKind) (raw pfn : Word) :
    Word.bit (arch.withPfnAt kind raw pfn) X86.pageSizeBit = raw.bit X86.pageSizeBit := by
  rw [bit_withPfnAt, not_has_pageSizeBit]
  rfl

/-! ### Reading a number back -/

/-- A number that was read goes back where it came from. -/
theorem withPfnAt_pfnAt (arch : Architecture) (kind : EntryKind) (raw : Word) :
    arch.withPfnAt kind raw (arch.pfnAt kind raw) = raw := by
  apply Word.ext_bit
  intro i _
  rw [bit_withPfnAt, bit_pfnAt]
  cases hi : (arch.frameField kind raw).has i with
  | false => rfl
  | true =>
    have hlow : arch.tableField.low ≤ i :=
      Nat.le_trans (low_le_frameField arch kind raw) (BitField.has_iff.mp hi).1
    rw [if_pos rfl, Nat.add_sub_cancel' hlow, hi, Bool.true_and]

theorem toNat_pfnAt_of_wide (h : arch.isWide kind raw = true) (pfn : Word) :
    (arch.pfnAt kind (arch.withPfnAt kind raw pfn)).toNat =
      2 * (pfn.toNat % 2 ^ arch.pfnWidth / 2) := by
  have hwide : arch.isWide kind (arch.withPfnAt kind raw pfn) = true := by
    rw [isWide_congr (pageSizeBit_withPfnAt arch kind raw pfn), h]
  have hwidth : arch.pfnWidth = 40 := by
    cases arch with
    | x86_64 => rfl
    | aarch64 | riscv64 => simp [isWide] at h
  have hhalf : (pfn >>> 1).toNat = pfn.toNat / 2 := by
    rw [UInt64.toNat_shiftRight]
    exact Nat.shiftRight_eq_div_pow ..
  have hkept : (X86.hugeAddressField.get (arch.withPfnAt kind raw pfn)).toNat =
      pfn.toNat / 2 % 2 ^ 39 := by
    rw [withPfnAt_of_wide h, BitField.get_put fits_hugeAddressField, ← hhalf]
    exact BitField.toNat_get_low (by decide) (pfn >>> 1)
  have hdouble : ∀ w : Word, w.toNat < 2 ^ 39 → (w <<< 1).toNat = 2 * w.toNat := by
    intro w hw
    rw [UInt64.toNat_shiftLeft]
    show w.toNat <<< 1 % 2 ^ 64 = 2 * w.toNat
    rw [Nat.shiftLeft_eq]
    omega
  rw [pfnAt_of_wide hwide, hdouble _ (by omega), hkept, hwidth]
  omega

theorem toNat_pfnAt_of_not_wide (h : arch.isWide kind raw = false) (pfn : Word) :
    (arch.pfnAt kind (arch.withPfnAt kind raw pfn)).toNat = pfn.toNat % 2 ^ arch.pfnWidth := by
  have hwide : arch.isWide kind (arch.withPfnAt kind raw pfn) = false := by
    rw [isWide_congr (pageSizeBit_withPfnAt arch kind raw pfn), h]
  rw [pfnAt_of_not_wide hwide, withPfnAt_of_not_wide h, BitField.get_put arch.fits_tableField,
    BitField.toNat_get_low (Nat.le_trans arch.width_tableField_le (by decide)), width_tableField]

/-! ### Patches -/

variable (arch kind)

theorem encode_of_pfn {patch : EntryPatch} {pfn : Word} (h : patch.pfn = some pfn)
    (existing : Word) :
    arch.encode existing patch kind = arch.withPfnAt kind (patch.overlay existing) pfn := by
  simp only [encode, h]

theorem encode_of_no_pfn {patch : EntryPatch} (h : patch.pfn = none) (existing : Word) :
    arch.encode existing patch kind = patch.overlay existing := by
  simp only [encode, h]

theorem bit_encode_of_not_has (existing : Word) (patch : EntryPatch) {i : Nat}
    (h : ∀ pfn, patch.pfn = some pfn →
      (arch.frameField kind (patch.overlay existing)).has i = false) :
    Word.bit (arch.encode existing patch kind) i = Word.bit (patch.overlay existing) i := by
  cases hp : patch.pfn with
  | none => rw [encode_of_no_pfn arch kind hp]
  | some pfn =>
    rw [encode_of_pfn arch kind hp, bit_withPfnAt, h pfn hp]
    rfl

/-- Outside the field the patch finds the second time what it left there, and the first time has
settled which field it is. -/
theorem encode_encode (existing : Word) (patch : EntryPatch) :
    arch.encode (arch.encode existing patch kind) patch kind = arch.encode existing patch kind := by
  cases hp : patch.pfn with
  | none => rw [encode_of_no_pfn arch kind hp, encode_of_no_pfn arch kind hp,
      EntryPatch.overlay_overlay]
  | some pfn =>
    have hout : ∀ i, (arch.frameField kind (patch.overlay existing)).has i = false →
        Word.bit (patch.overlay (arch.encode existing patch kind)) i =
          Word.bit (patch.overlay existing) i := by
      intro i hi
      rw [EntryPatch.bit_overlay, bit_encode_of_not_has arch kind existing patch fun _ _ => hi,
        ← EntryPatch.bit_overlay, EntryPatch.overlay_overlay]
    have hfield : arch.frameField kind (patch.overlay (arch.encode existing patch kind)) =
        arch.frameField kind (patch.overlay existing) :=
      frameField_congr (hout _ (not_has_pageSizeBit arch kind _))
    rw [encode_of_pfn arch kind hp (arch.encode existing patch kind)]
    apply Word.ext_bit
    intro i _
    rw [bit_withPfnAt, hfield]
    cases hi : (arch.frameField kind (patch.overlay existing)).has i with
    | false =>
      rw [hout i hi, bit_encode_of_not_has arch kind existing patch fun _ _ => hi]
      rfl
    | true =>
      rw [encode_of_pfn arch kind hp, bit_withPfnAt, hi]
      rfl

/-- Laying a patch over an entry changes what the patch names and nothing else. -/
structure Overlays (existing : Word) (patch : EntryPatch) : Prop where
  outside : ∀ i, (∀ pfn, patch.pfn = some pfn →
      (arch.frameField kind (patch.overlay existing)).has i = false) →
    Word.bit (arch.encode existing patch kind) i =
      (patch.set.bit i || (existing.bit i && !patch.clear.bit i))
  unnamed : ∀ i, patch.set.bit i = false → patch.clear.bit i = false →
    (∀ pfn, patch.pfn = some pfn →
      (arch.frameField kind (patch.overlay existing)).has i = false) →
    Word.bit (arch.encode existing patch kind) i = existing.bit i
  bits : patch.pfn = none →
    arch.encode existing patch kind = (existing &&& ~~~patch.clear) ||| patch.set
  /-- The number as far as the entry has room for it, which the bits just changed decide. -/
  frame : ∀ pfn, patch.pfn = some pfn →
    (arch.pfnAt kind (arch.encode existing patch kind)).toNat =
      if arch.isWide kind (patch.overlay existing) then 2 * (pfn.toNat % 2 ^ arch.pfnWidth / 2)
      else pfn.toNat % 2 ^ arch.pfnWidth
  /-- A huge page keeps its PAT selector, which is in the way of the lowest bit of the number. -/
  selector : arch.isWide kind (patch.overlay existing) = true →
    Word.bit (arch.encode existing patch kind) (X86.patBit true) =
      (patch.set.bit (X86.patBit true) ||
        (existing.bit (X86.patBit true) && !patch.clear.bit (X86.patBit true)))
  again : arch.encode (arch.encode existing patch kind) patch kind =
    arch.encode existing patch kind

theorem overlays (existing : Word) (patch : EntryPatch) : arch.Overlays kind existing patch where
  outside i hfield := by
    rw [bit_encode_of_not_has arch kind existing patch hfield, EntryPatch.bit_overlay]
  unnamed i hset hclear hfield := by
    rw [bit_encode_of_not_has arch kind existing patch hfield, EntryPatch.bit_overlay, hset, hclear,
      Bool.false_or, Bool.not_false, Bool.and_true]
  bits hp := encode_of_no_pfn arch kind hp existing
  frame pfn hp := by
    rw [encode_of_pfn arch kind hp]
    cases hwide : arch.isWide kind (patch.overlay existing) with
    | true => exact toNat_pfnAt_of_wide hwide pfn
    | false => exact toNat_pfnAt_of_not_wide hwide pfn
  selector hwide := by
    have hfield : arch.frameField kind (patch.overlay existing) = X86.hugeAddressField :=
      if_pos hwide
    rw [bit_encode_of_not_has arch kind existing patch fun _ _ => hfield ▸ rfl,
      EntryPatch.bit_overlay]
  again := encode_encode arch kind existing patch

theorem encode_overlays (existing : Word) :
    (∀ kind patch, arch.Overlays kind existing patch) ∧
      (∀ kind, arch.encode existing .empty kind = existing) ∧
      arch.withPfn existing (arch.pfn existing) = existing :=
  ⟨fun kind patch => arch.overlays kind existing patch,
    fun _ => EntryPatch.overlay_empty existing, arch.withPfnAt_pfnAt .page existing⟩

end Paging.Architecture
