import Paging.Proofs.Regions

/-!
# Addresses as numbers in mixed radix

The present levels of a geometry take adjacent bits of an address, the last of them right above the
page offset (`Stacked`). The index at a level is thus a digit whose radix is the size of a table
there, and the page offset is the last digit: the digits of an address make up its translated bits,
and every choice of digits is that of exactly one address (`Constructed.positional`). That all 64
bits may be translated does no harm, since the root always takes one of them.
-/

namespace Paging.Geometry

variable {g : Geometry}

/-! ### Levels one above the other -/

/-- How many bits some levels take together. -/
def taken (g : Geometry) (ls : List Level) : Nat := (ls.map g.width).foldr (· + ·) 0

theorem taken_cons (g : Geometry) (l : Level) (ls : List Level) :
    g.taken (l :: ls) = g.width l + g.taken ls := rfl

/-- Each level begins where those after it in the list end, the last one at the page offset. -/
inductive Stacked (g : Geometry) : List Level → Prop where
  | nil : Stacked g []
  | cons {l : Level} {ls : List Level} (shift : g.shift l = g.offsetBits + g.taken ls)
      (rest : Stacked g ls) : Stacked g (l :: ls)

theorem stacked_all (g : Geometry) : Stacked g Level.all :=
  .cons rfl (.cons rfl (.cons rfl (.cons rfl (.cons rfl .nil))))

theorem width_of_absent {l : Level} (h : ¬g.isPresent l) : g.width l = 0 := by
  rw [width, Option.not_isSome_iff_eq_none.mp h]
  rfl

/-- Absent levels take no bits. -/
theorem taken_filter (g : Geometry) (ls : List Level) :
    g.taken (ls.filter g.isPresent) = g.taken ls := by
  induction ls with
  | nil => rfl
  | cons l ls ih =>
    by_cases hl : g.isPresent l
    · rw [List.filter_cons_of_pos hl, taken_cons, taken_cons, ih]
    · rw [List.filter_cons_of_neg hl, ih, taken_cons, width_of_absent hl, Nat.zero_add]

theorem Stacked.filter {ls : List Level} (h : Stacked g ls) :
    Stacked g (ls.filter g.isPresent) := by
  induction h with
  | nil => exact .nil
  | @cons l ls hshift _ ih =>
    by_cases hl : g.isPresent l
    · rw [List.filter_cons_of_pos hl]
      exact .cons (by rw [hshift, taken_filter]) ih
    · rw [List.filter_cons_of_neg hl]
      exact ih

theorem stacked_levels (g : Geometry) : Stacked g g.levels := (stacked_all g).filter

theorem virtualBits_eq (g : Geometry) :
    g.virtualBits = g.offsetBits + g.taken g.levels := by
  rw [levels, taken_filter]
  rfl

theorem Stacked.shift_add_width_le {ls : List Level} (h : Stacked g ls) {l : Level} (hl : l ∈ ls) :
    g.shift l + g.width l ≤ g.offsetBits + g.taken ls := by
  induction h with
  | nil => cases hl
  | cons hshift _ ih =>
    rw [taken_cons]
    rcases List.mem_cons.mp hl with rfl | hl
    · omega
    · have := ih hl
      omega

theorem Stacked.shift_adjacent {above below : List Level} {upper lower : Level}
    (h : Stacked g (above ++ upper :: lower :: below)) :
    g.shift upper = g.shift lower + g.width lower := by
  induction above with
  | nil =>
    obtain _ | ⟨hupper, _ | ⟨hlower, _⟩⟩ := h
    rw [taken_cons] at hupper
    omega
  | cons _ above ih =>
    obtain _ | ⟨_, hrest⟩ := h
    exact ih hrest

/-! ### Digits -/

/-- The number with the given digits at some levels and the given page offset. -/
def number (g : Geometry) (ls : List Level) (digit : Level → Nat) (offset : Nat) : Nat :=
  (ls.map fun l => digit l * 2 ^ g.shift l).foldr (· + ·) 0 + offset

theorem number_cons (g : Geometry) (l : Level) (ls : List Level) (digit : Level → Nat)
    (offset : Nat) :
    g.number (l :: ls) digit offset = digit l * 2 ^ g.shift l + g.number ls digit offset := by
  simp only [number, List.map_cons, List.foldr_cons, Nat.add_assoc]

theorem Stacked.number_lt {ls : List Level} (h : Stacked g ls) {digit : Level → Nat} {offset : Nat}
    (hd : ∀ l ∈ ls, digit l < 2 ^ g.width l) (ho : offset < g.pageSize) :
    g.number ls digit offset < 2 ^ (g.offsetBits + g.taken ls) := by
  induction h with
  | nil => simpa [number, taken, pageSize] using ho
  | @cons l ls hshift _ ih =>
    have hrest := ih fun m hm => hd m (List.mem_cons_of_mem _ hm)
    have hfirst : digit l * 2 ^ g.shift l + 2 ^ g.shift l ≤ 2 ^ (g.width l + g.shift l) := by
      rw [← Nat.succ_mul, Nat.pow_add]
      exact Nat.mul_le_mul_right _ (hd l List.mem_cons_self)
    rw [number_cons, taken_cons, Nat.add_left_comm, ← hshift]
    rw [← hshift] at hrest
    omega

/-- The digits of a number make up what is left of it below the lowest bit that no level takes. -/
theorem Stacked.number_digits {ls : List Level} (h : Stacked g ls) (n : Nat) :
    g.number ls (fun l => n / 2 ^ g.shift l % 2 ^ g.width l) (n % g.pageSize) =
      n % 2 ^ (g.offsetBits + g.taken ls) := by
  induction h with
  | nil => simp [number, taken, pageSize]
  | @cons l ls hshift _ ih =>
    rw [number_cons, ih, taken_cons, Nat.add_left_comm, ← hshift,
      Nat.add_comm (g.width l), Nat.pow_add, Nat.mod_mul, Nat.mul_comm]
    exact Nat.add_comm ..

/-- What stands above the bits of a level and the level after it does not show in its digit. -/
theorem digit_add_mul {n k shift width top : Nat} (h : shift + width ≤ top) :
    (k * 2 ^ top + n) / 2 ^ shift % 2 ^ width = n / 2 ^ shift % 2 ^ width := by
  obtain ⟨d, rfl⟩ := Nat.exists_eq_add_of_le h
  have hmultiple : k * 2 ^ (shift + width + d) = 2 ^ shift * (2 ^ width * (k * 2 ^ d)) := by
    rw [Nat.pow_add, Nat.pow_add]
    ac_rfl
  rw [hmultiple, Nat.mul_add_div (Nat.two_pow_pos _), Nat.mul_add_mod]

/-- The digits of the number with some digits are those. -/
theorem Stacked.digit_number {ls : List Level} (h : Stacked g ls) {digit : Level → Nat}
    {offset : Nat} (hd : ∀ l ∈ ls, digit l < 2 ^ g.width l) (ho : offset < g.pageSize) :
    ∀ l ∈ ls, g.number ls digit offset / 2 ^ g.shift l % 2 ^ g.width l = digit l := by
  induction h with
  | nil => exact nofun
  | @cons m ls hshift hrest ih =>
    have hdeeper : ∀ l ∈ ls, digit l < 2 ^ g.width l := fun l hl => hd l (List.mem_cons_of_mem _ hl)
    intro l hl
    rw [number_cons]
    rcases List.mem_cons.mp hl with rfl | hl
    · have hlt := hrest.number_lt hdeeper ho
      rw [← hshift] at hlt
      rw [Nat.mul_comm, Nat.mul_add_div (Nat.two_pow_pos _), Nat.div_eq_of_lt hlt, Nat.add_zero,
        Nat.mod_eq_of_lt (hd _ List.mem_cons_self)]
    · have hle := hrest.shift_add_width_le hl
      rw [← hshift] at hle
      rw [digit_add_mul hle]
      exact ih hdeeper l hl

theorem Stacked.number_mod_pageSize {ls : List Level} (h : Stacked g ls) (digit : Level → Nat)
    {offset : Nat} (ho : offset < g.pageSize) : g.number ls digit offset % g.pageSize = offset := by
  induction h with
  | nil => simpa [number] using Nat.mod_eq_of_lt ho
  | @cons l ls hshift _ ih =>
    have hmultiple : digit l * 2 ^ g.shift l =
        g.pageSize * (2 ^ g.taken ls * digit l) := by
      rw [hshift, Nat.pow_add, pageSize]
      ac_rfl
    rw [number_cons, hmultiple, Nat.mul_add_mod]
    exact ih

/-! ### Addresses -/

/-- An index is the address shifted down and cut off, as operations on words. -/
theorem index_eq_word (hu : g.isUsable = true) (vaddr : VirtualAddress) (l : Level) :
    g.index vaddr l =
      ((vaddr.word >>> UInt64.ofNat (g.shift l)) &&& (UInt64.ofNat (2 ^ g.width l) - 1)).toNat := by
  have hshift := shift_lt hu l
  have hwidth : 2 ^ g.width l ≤ 2 ^ 16 := two_pow_width_le hu l
  have hpos : 0 < 2 ^ g.width l := Nat.two_pow_pos _
  have hones : (UInt64.ofNat (2 ^ g.width l) - 1).toNat = 2 ^ g.width l - 1 := by
    have hone : (1 : Word).toNat = 1 := rfl
    rw [UInt64.toNat_sub, UInt64.toNat_ofNat', hone]
    omega
  have hamount : (UInt64.ofNat (g.shift l)).toNat % 64 = g.shift l := by
    rw [UInt64.toNat_ofNat']
    omega
  rw [UInt64.toNat_and, UInt64.toNat_shiftRight, hones, hamount, Nat.and_two_pow_sub_one_eq_mod,
    Nat.shiftRight_eq_div_pow]
  rfl

/-- The digits of an address in a geometry are its indices and its page offset, and they stand for
its translated bits. -/
structure Positional (g : Geometry) : Prop where
  index_lt : ∀ vaddr, ∀ l ∈ g.levels, g.index vaddr l < 2 ^ g.width l
  sum : ∀ vaddr : VirtualAddress,
    (g.levels.map fun l => g.index vaddr l * 2 ^ g.shift l).foldr (· + ·) 0 +
      vaddr.toNat % g.pageSize = vaddr.toNat % 2 ^ g.virtualBits
  /-- Any digits are those of the address that has them, which needs no more bits than there are. -/
  composed : ∀ (digit : Level → Nat) (offset : Nat), (∀ l ∈ g.levels, digit l < 2 ^ g.width l) →
    offset < g.pageSize →
    ∃ vaddr : VirtualAddress,
      vaddr.toNat = (g.levels.map fun l => digit l * 2 ^ g.shift l).foldr (· + ·) 0 + offset ∧
      vaddr.toNat < 2 ^ g.virtualBits ∧ (∀ l ∈ g.levels, g.index vaddr l = digit l) ∧
      vaddr.toNat % g.pageSize = offset
  /-- No two addresses that differ in a translated bit have the same digits. -/
  injective : ∀ a b : VirtualAddress, (∀ l ∈ g.levels, g.index a l = g.index b l) →
    a.toNat % g.pageSize = b.toNat % g.pageSize →
    a.toNat % 2 ^ g.virtualBits = b.toNat % 2 ^ g.virtualBits
  shift_lt : ∀ l, g.shift l < 64
  /-- So the shift is one of words, at the absent levels too. -/
  index_eq : ∀ (vaddr : VirtualAddress) (l : Level), g.index vaddr l =
    ((vaddr.word >>> UInt64.ofNat (g.shift l)) &&& (UInt64.ofNat (2 ^ g.width l) - 1)).toNat
  region : ∀ l, (g.regionSize l).toNat = 2 ^ g.shift l ∧ g.regionSize l ≠ 0
  /-- The entries of a table map together what the entry for the table maps. -/
  adjacent : ∀ above upper lower below, g.levels = above ++ upper :: lower :: below →
    (g.regionSize upper).toNat = (g.regionSize lower).toNat * 2 ^ g.width lower

theorem sum_index (g : Geometry) (vaddr : VirtualAddress) :
    (g.levels.map fun l => g.index vaddr l * 2 ^ g.shift l).foldr (· + ·) 0 +
      vaddr.toNat % g.pageSize = vaddr.toNat % 2 ^ g.virtualBits := by
  rw [virtualBits_eq]
  exact g.stacked_levels.number_digits vaddr.toNat

theorem Constructed.positional (h : g.Constructed) : g.Positional := by
  have hu := h.isUsable
  constructor
  case index_lt => exact fun vaddr l _ => index_lt g vaddr l
  case sum => exact g.sum_index
  case composed =>
    intro digit offset hd ho
    have hlt : g.number g.levels digit offset < 2 ^ g.virtualBits := by
      rw [virtualBits_eq]
      exact g.stacked_levels.number_lt hd ho
    have hword : 2 ^ g.virtualBits ≤ 2 ^ 64 := Nat.pow_le_pow_right (by decide) (virtualBits_le hu)
    have hvalue : (UInt64.ofNat (g.number g.levels digit offset)).toNat =
        g.number g.levels digit offset := by
      rw [UInt64.toNat_ofNat', Nat.mod_eq_of_lt (by omega)]
    refine ⟨⟨UInt64.ofNat (g.number g.levels digit offset)⟩, hvalue, ?_, ?_, ?_⟩
    · unfold Address.toNat
      rw [hvalue]
      exact hlt
    · intro l hl
      unfold index Address.toNat
      rw [hvalue]
      exact g.stacked_levels.digit_number hd ho l hl
    · unfold Address.toNat
      rw [hvalue]
      exact g.stacked_levels.number_mod_pageSize digit ho
  case injective =>
    intro a b hindex hoffset
    rw [← g.sum_index a, ← g.sum_index b, hoffset, List.map_congr_left]
    intro l hl
    rw [hindex l hl]
  case shift_lt => exact shift_lt hu
  case index_eq => exact index_eq_word hu
  case region =>
    intro l
    have hsize := toNat_regionSize hu l
    refine ⟨hsize, fun hzero => ?_⟩
    have hpos : 0 < 2 ^ g.shift l := Nat.two_pow_pos _
    rw [hzero] at hsize
    exact absurd hsize.symm (Nat.ne_of_gt hpos)
  case adjacent =>
    intro above upper lower below hlevels
    have hshift := (hlevels ▸ g.stacked_levels :
      Stacked g (above ++ upper :: lower :: below)).shift_adjacent
    rw [toNat_regionSize hu, toNat_regionSize hu, hshift, Nat.pow_add]

/-- A layout that translates all 64 bits. -/
def fullWidth : Geometry := ⟨12, ⟨some 4, none, some 16, some 16, some 16⟩⟩

theorem Constructed.positional_fullWidth :
    fullWidth.Constructed ∧ fullWidth.virtualBits = 64 ∧ fullWidth.Positional := by
  have hbuilt : ofWidths 12 [4, 16, 16, 16] = .ok fullWidth := by rfl
  exact ⟨.widths hbuilt, by decide, (Constructed.widths hbuilt).positional⟩

end Paging.Geometry
