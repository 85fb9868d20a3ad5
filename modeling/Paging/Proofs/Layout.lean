import Paging.Geometry.Register

/-!
# Layouts that can be built

A geometry is built by name, from widths or from a control register, and every one that is built is
usable (`Constructed.isUsable`). Of a usable geometry the walk needs two things: no table has more
than `2 ^ 16` entries (`width_le`), and the present levels, root first, are some levels above the
last one followed by the last one (`levels_eq`).
-/

namespace Paging.Geometry

/-- The geometries that there is a way to build. -/
inductive Constructed : Geometry → Prop where
  | named (name : NamedGeometry) : Constructed name.layout
  | widths {offsetBits : Nat} {widths : List Nat} {g : Geometry}
      (h : ofWidths offsetBits widths = .ok g) : Constructed g
  | control {arch : Architecture} {value : Word} {g : Geometry}
      (h : ofControl arch value = .ok g) : Constructed g

theorem isUsable_layout (name : NamedGeometry) : name.layout.isUsable = true := by
  cases name <;> decide

theorem isUsable_ofWidths {offsetBits : Nat} {widths : List Nat} {g : Geometry}
    (h : ofWidths offsetBits widths = .ok g) : g.isUsable = true := by
  unfold ofWidths at h
  cases hs : slots? widths.length with
  | none => simp [hs] at h
  | some slots =>
    simp only [hs] at h
    split at h
    · rename_i hu
      have hg := Except.ok.inj h
      rw [← hg]
      exact hu
    · cases h

theorem isUsable_ofCr4 {cr4 : Word} {g : Geometry} (h : ofCr4 cr4 = .ok g) :
    g.isUsable = true := by
  unfold ofCr4 at h
  split at h
  · cases h
  · split at h
    · cases h
      exact isUsable_layout .x86FiveLevel
    · cases h
      exact isUsable_layout .x86FourLevel

theorem isUsable_ofTcr {tcr : Word} {g : Geometry} (h : ofTcr tcr = .ok g) :
    g.isUsable = true := by
  unfold ofTcr at h
  cases hg : granule? tcr with
  | none => simp [hg] at h
  | some granule =>
    simp only [hg] at h
    split at h
    · cases h
    · split at h
      · rename_i hw
        cases h
        exact isUsable_ofWidths hw
      · cases h

theorem isUsable_ofSatp {satp : Word} {g : Geometry} (h : ofSatp satp = .ok g) :
    g.isUsable = true := by
  unfold ofSatp at h
  split at h
  · cases h
    exact isUsable_layout .sv39
  · cases h
    exact isUsable_layout .sv48
  · cases h
    exact isUsable_layout .sv57
  · cases h

theorem Constructed.isUsable {g : Geometry} (h : g.Constructed) : g.isUsable = true := by
  cases h with
  | named name => exact isUsable_layout name
  | widths h => exact isUsable_ofWidths h
  | @control arch value _ h =>
    cases arch with
    | x86_64 => exact isUsable_ofCr4 h
    | aarch64 => exact isUsable_ofTcr h
    | riscv64 variant => exact isUsable_ofSatp h

/-! ### Consequences -/

variable {g : Geometry}

theorem width_mem_range (hu : g.isUsable = true) {l : Level} {w : Nat} (hw : g.width? l = some w) :
    1 ≤ w ∧ w ≤ 16 := by
  have hall : (g.widths.toList.all fun w => w.all fun w => decide (1 ≤ w) && decide (w ≤ 16)) =
      true := by
    simp only [Geometry.isUsable, Bool.and_eq_true] at hu
    exact hu.1.2
  have hmem : g.width? l ∈ g.widths.toList := List.mem_map.mpr ⟨l, Level.mem_all l, rfl⟩
  have h := List.all_eq_true.mp hall _ hmem
  rw [hw] at h
  simpa using h

theorem width_le (hu : g.isUsable = true) (l : Level) : g.width l ≤ 16 := by
  unfold width
  cases hw : g.width? l with
  | none => simp
  | some w => exact (width_mem_range hu hw).2

theorem isPresent_pgd (hu : g.isUsable = true) : g.isPresent .pgd = true := by
  simp only [Geometry.isUsable, Bool.and_eq_true] at hu
  exact hu.1.1.1.2

theorem isPresent_last (hu : g.isUsable = true) : g.isPresent Level.last = true := by
  simp only [Geometry.isUsable, Bool.and_eq_true] at hu
  exact hu.1.1.2

theorem mem_levels {l : Level} : l ∈ g.levels ↔ g.isPresent l = true := by
  simp [levels, Level.mem_all]

theorem nodup_levels (g : Geometry) : g.levels.Nodup :=
  List.Pairwise.filter _ (by decide : Level.all.Nodup)

/-- The levels above the last one that a geometry has, root first. -/
def upper (g : Geometry) : List Level := [Level.pgd, .p4d, .pud, .pmd].filter g.isPresent

theorem levels_eq (hu : g.isUsable = true) : g.levels = g.upper ++ [Level.last] := by
  have hall : Level.all = [Level.pgd, .p4d, .pud, .pmd] ++ [Level.last] := rfl
  rw [levels, hall, List.filter_append, List.filter_cons_of_pos (isPresent_last hu)]
  rfl

theorem last_not_mem_upper (g : Geometry) : Level.last ∉ g.upper := by
  simp [upper, Level.last]

theorem getElem_levels_eq_last (hu : g.isUsable = true) {i : Nat} (hi : i < g.levels.length) :
    g.levels[i] = Level.last ↔ i + 1 = g.levels.length := by
  have heq := levels_eq hu
  have hlen : g.levels.length = g.upper.length + 1 := by rw [heq]; simp
  by_cases h : i < g.upper.length
  · have hget : g.levels[i] = g.upper[i] := by
      simp only [heq]
      exact List.getElem_append_left h
    have hne : g.levels[i] ≠ Level.last := by
      rw [hget]
      intro hl
      exact last_not_mem_upper g (hl ▸ List.getElem_mem h)
    constructor
    · intro hl
      exact absurd hl hne
    · intro hl
      omega
  · have hi' : i = g.upper.length := by omega
    subst hi'
    constructor
    · intro _
      omega
    · intro _
      simp [heq]

theorem length_levels_pos (hu : g.isUsable = true) : 0 < g.levels.length := by
  rw [levels_eq hu]
  simp

theorem two_le_length_levels (hu : g.isUsable = true) : 2 ≤ g.levels.length := by
  have hmem : Level.pgd ∈ g.upper := by simp [upper, isPresent_pgd hu]
  have hpos := List.length_pos_of_mem hmem
  have hlen : g.levels.length = g.upper.length + 1 := by rw [levels_eq hu]; simp
  omega

theorem two_pow_width_le (hu : g.isUsable = true) (l : Level) : 2 ^ g.width l ≤ 2 ^ 16 :=
  Nat.pow_le_pow_right (by decide) (width_le hu l)

theorem index_lt (g : Geometry) (vaddr : VirtualAddress) (l : Level) :
    g.index vaddr l < 2 ^ g.width l := Nat.mod_lt _ (Nat.two_pow_pos _)

end Paging.Geometry
