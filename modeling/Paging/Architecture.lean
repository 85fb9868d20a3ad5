/-!
# Architectures

The architectures whose entries can be read and written. RISC-V comes in two flavours, which differ
in whether an entry carries a memory type.
-/

namespace Paging

inductive RiscvVariant where
  /-- The ratified privileged architecture, whose entries have no memory-type bits. -/
  | standard
  /-- T-Head C9xx cores, with attribute bits at the top of the entry. -/
  | thead
deriving DecidableEq, Repr

inductive Architecture where
  | x86_64
  | aarch64
  | riscv64 (variant : RiscvVariant)
deriving DecidableEq, Repr

/-- Where in the hierarchy an entry sits, which changes how some of its bits are read. -/
inductive EntryKind where
  /-- Above the last level: points at a table or maps a huge page. -/
  | directory
  /-- At the last level: maps a base page. -/
  | page
deriving DecidableEq, Repr

def Architecture.debugText : Architecture → String
  | .x86_64 => "X86_64"
  | .aarch64 => "Aarch64"
  | .riscv64 .standard => "Riscv64(Standard)"
  | .riscv64 .thead => "Riscv64(THeadC9xx)"

end Paging
