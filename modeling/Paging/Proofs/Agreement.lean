import Paging.Proofs.Decoding

/-!
# One entry, read in two ways

Walks and edits ask quick questions of a raw word, while a decoded entry shows all of it at once.
The two never disagree, whatever the word holds (`Architecture.view_agrees`): each quick answer is
what the decoder reports wherever the decoder reports it, and of an entry that is not present it
reports nothing.
-/

namespace Paging.Architecture

variable (arch : Architecture) (kind : EntryKind) (raw : Word)

theorem view_of_absent (h : arch.isPresent kind raw = false) : arch.view kind raw = .absent := by
  cases arch with
  | x86_64 =>
    have hp : ¬ X86.isPresent raw = true := by simpa [isPresent] using h
    rw [view, X86.view, if_neg hp]
  | aarch64 =>
    have hp : ¬ Arm.isPresent kind raw = true := by simpa [isPresent] using h
    rw [view, Arm.view, if_neg hp]
  | riscv64 variant =>
    have hp : ¬ Riscv.isPresent raw = true := by simpa [isPresent] using h
    rw [view, Riscv.view, if_neg hp]

theorem pfn_view (h : arch.isPresent kind raw = true) :
    (arch.view kind raw).pfn = arch.pfnAt kind raw := by
  cases arch with
  | x86_64 =>
    have hp : X86.isPresent raw = true := h
    rw [view, X86.view, if_pos hp, pfnAt]
  | aarch64 =>
    have hp : Arm.isPresent kind raw = true := h
    rw [view, Arm.view, if_pos hp, pfnAt]
  | riscv64 variant =>
    have hp : Riscv.isPresent raw = true := h
    rw [view, Riscv.view, if_pos hp, pfnAt]

/-- The decoder shows the memory type of leaves alone. -/
theorem memoryType_view :
    (arch.view kind raw).memoryType =
      if (arch.view kind raw).leaf then
        (arch.extractMemoryType raw (kind == .directory)).toOption
      else none := by
  cases hp : arch.isPresent kind raw with
  | false => rw [view_of_absent arch kind raw hp]; rfl
  | true =>
    cases arch with
    | x86_64 =>
      have h : X86.isPresent raw = true := hp
      simp only [view, X86.view, if_pos h, extractMemoryType, Except.toOption]
    | aarch64 =>
      have h : Arm.isPresent kind raw = true := hp
      simp only [view, Arm.view, if_pos h, extractMemoryType, Except.toOption]
    | riscv64 variant =>
      have h : Riscv.isPresent raw = true := hp
      cases variant <;>
        simp [view, Riscv.view, if_pos h, extractMemoryType, Except.toOption]

/-- The quick answers for a word are those of the decoder. -/
structure Agrees (arch : Architecture) (raw : Word) : Prop where
  present : ∀ kind, arch.isPresent kind raw = (arch.view kind raw).present
  huge : arch.isHuge raw = (arch.view .directory raw).isHuge .directory
  table : (arch.view .directory raw).present = true → (arch.view .directory raw).leaf = false →
    (arch.tableAddress raw).toNat = (arch.view .directory raw).pfn.toNat * 4096
  frame : (arch.view .page raw).present = true → arch.pfn raw = (arch.view .page raw).pfn
  memoryType : ∀ kind mt, (arch.view kind raw).memoryType = some mt →
    arch.extractMemoryType raw (kind == .directory) = .ok mt
  /-- Where there are memory types at all, every leaf has one and nothing else does. -/
  typed : ∀ kind, (arch.view kind raw).memoryType.isSome =
    ((arch.view kind raw).leaf && arch != .riscv64 .standard)
  absent : ∀ kind, (arch.view kind raw).present = false →
    arch.view kind raw = ⟨false, false, 0, none, ⟨false, false, false, false⟩, false, false⟩

theorem view_agrees : arch.Agrees raw where
  present kind := arch.isPresent_eq_view kind raw
  huge := arch.isHuge_eq_view raw
  table hp hl := by rw [toNat_tableAddress hp hl, Nat.mul_comm]
  frame hp := by
    rw [← isPresent_eq_view] at hp
    rw [pfn_view arch .page raw hp, pfn]
  memoryType kind mt h := by
    rw [memoryType_view] at h
    obtain ⟨_, hmt⟩ := Option.ite_none_right_eq_some.mp h
    cases hx : arch.extractMemoryType raw (kind == .directory) with
    | ok found =>
      rw [hx] at hmt
      rw [Option.some.inj hmt]
    | error refusal =>
      rw [hx] at hmt
      cases hmt
  typed kind := by
    rw [memoryType_view]
    cases (arch.view kind raw).leaf with
    | false => rfl
    | true =>
      cases arch with
      | riscv64 variant => cases variant <;> rfl
      | x86_64 | aarch64 => rfl
  absent kind h := by
    rw [← isPresent_eq_view] at h
    exact arch.view_of_absent kind raw h

end Paging.Architecture
