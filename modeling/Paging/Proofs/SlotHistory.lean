import Mathlib.Data.List.Induction
import Paging.Proofs.MemoryTypeSlots

/-!
# Slots set one after the other

However many slots of a table are set, each holds what it was set to last, as far as it has bits for
it, and what it held at first if it was never set; no other bit of the register changes
(`MemoryTypeTable.get_setAll`, `MemoryTypeTable.bit_setAll`). Searching a table marks the slots that
stand for a memory type, and the first of them is the lowest mark (`MemoryTypeTable.testBit_find`,
`MemoryTypeTable.findFirst?_eq_some_iff`).
-/

namespace Paging

/-! ### Marks -/

namespace Mark

theorem toNat_one_shiftLeft {i : UInt8} (hi : i.toNat < 8) :
    ((1 : UInt8) <<< i).toNat = 2 ^ i.toNat := by
  have hlt : 2 ^ i.toNat < 2 ^ 8 := Nat.pow_lt_pow_right (by decide) hi
  rw [UInt8.toNat_shiftLeft, Nat.mod_eq_of_lt hi, Nat.shiftLeft_eq, UInt8.toNat_one, Nat.one_mul,
    Nat.mod_eq_of_lt hlt]

/-- The bits of a union of marks are the marks. -/
theorem testBit_foldl {marks : List UInt8} (h : ∀ i ∈ marks, i.toNat < 8) (found : UInt8)
    (j : Nat) : (marks.foldl (fun found i => found ||| (1 : UInt8) <<< i) found).toNat.testBit j =
      (found.toNat.testBit j || marks.any fun i => i.toNat == j) := by
  induction marks generalizing found with
  | nil => simp
  | cons i rest ih =>
    have hi := toNat_one_shiftLeft (h i (List.mem_cons_self ..))
    rw [List.foldl_cons, ih fun j hj => h j (List.mem_cons_of_mem _ hj), UInt8.toNat_or,
      Nat.testBit_or, hi, Nat.testBit_two_pow, List.any_cons, Bool.or_assoc]
    rfl

end Mark

namespace MemoryTypeTable

variable {t : MemoryTypeTable} {sets : List (UInt8 × UInt8)} {index mt i : UInt8} {slot : BitField}

/-! ### Sequences of sets -/

/-- The table after slots have been set one after the other. -/
def setAll (t : MemoryTypeTable) (sets : List (UInt8 × UInt8)) : MemoryTypeTable :=
  sets.foldl (fun t s => t.set s.1 s.2) t

/-- What the slot of an index was set to last. Indices count modulo eight. -/
def lastSet? (sets : List (UInt8 × UInt8)) (index : UInt8) : Option UInt8 :=
  (sets.reverse.find? fun s => s.1.toNat % 8 == index.toNat % 8).map Prod.snd

theorem setAll_concat (t : MemoryTypeTable) (sets : List (UInt8 × UInt8)) (s : UInt8 × UInt8) :
    t.setAll (sets ++ [s]) = (t.setAll sets).set s.1 s.2 := by
  rw [setAll, List.foldl_append]
  rfl

theorem lastSet?_concat (sets : List (UInt8 × UInt8)) (s : UInt8 × UInt8) (index : UInt8) :
    lastSet? (sets ++ [s]) index =
      if s.1.toNat % 8 = index.toNat % 8 then some s.2 else lastSet? sets index := by
  rw [lastSet?, List.reverse_concat, List.find?_cons]
  by_cases h : s.1.toNat % 8 = index.toNat % 8
  · rw [if_pos h, beq_iff_eq.mpr h]
    rfl
  · rw [if_neg h, beq_false_of_ne h]
    rfl

theorem layout_set (t : MemoryTypeTable) (index mt : UInt8) : (t.set index mt).layout = t.layout := by
  unfold set
  split <;> rfl

theorem layout_setAll (t : MemoryTypeTable) (sets : List (UInt8 × UInt8)) :
    (t.setAll sets).layout = t.layout := by
  induction sets using List.reverseRecOn with
  | nil => rfl
  | append_singleton sets s ih => rw [setAll_concat, layout_set, ih]

/-- The last set of a slot decides what it holds. -/
theorem get_setAll (hs : slot? t.layout index = some slot) (sets : List (UInt8 × UInt8)) :
    (t.setAll sets).get index =
      match lastSet? sets index with
      | some mt => .ofNat (mt.toNat % 2 ^ slot.width)
      | none => t.get index := by
  induction sets using List.reverseRecOn with
  | nil => rfl
  | append_singleton sets s ih =>
    rw [setAll_concat, lastSet?_concat]
    by_cases h : s.1.toNat % 8 = index.toNat % 8
    · have hslot : slot? (t.setAll sets).layout s.1 = some slot := by
        rw [layout_setAll, slot?_congr t.layout h, hs]
      rw [if_pos h, get_set_same hslot h.symm]
    · rw [if_neg h, get_set_other (Ne.symm h), ih]

theorem bit_set (t : MemoryTypeTable) (index mt : UInt8) {i : Nat}
    (h : ∀ slot, slot? t.layout index = some slot → slot.has i = false) :
    (t.set index mt).value.bit i = t.value.bit i := by
  cases hs : slot? t.layout index with
  | none => simp only [set, hs]
  | some slot =>
    rw [set_of_slot hs, BitField.bit_put (fits_slot hs), h slot hs]
    rfl

/-- Bits outside the slots that were set stay. -/
theorem bit_setAll (t : MemoryTypeTable) (sets : List (UInt8 × UInt8)) {i : Nat}
    (h : ∀ s ∈ sets, ∀ slot, slot? t.layout s.1 = some slot → slot.has i = false) :
    (t.setAll sets).value.bit i = t.value.bit i := by
  induction sets using List.reverseRecOn with
  | nil => rfl
  | append_singleton sets s ih =>
    have hs := h s (List.mem_append_right _ (List.mem_singleton_self s))
    rw [setAll_concat, bit_set _ _ _ (by rwa [layout_setAll]),
      ih fun s' hs' => h s' (List.mem_append_left _ hs')]

/-- A table without slots keeps its value. -/
theorem setAll_inEntry (h : t.layout = .inEntry) (sets : List (UInt8 × UInt8)) :
    t.setAll sets = t := by
  induction sets using List.reverseRecOn with
  | nil => rfl
  | append_singleton sets s ih =>
    rw [setAll_concat, ih]
    simp only [set, h, slot?]

/-! ### Searches -/

theorem mem_slotsHolding : i ∈ t.slotsHolding mt ↔
    i.toNat < 8 ∧ holds t.layout (t.get i) mt = true := by
  have hmem : i ∈ [0, 1, 2, 3, 4, 5, 6, 7] ↔ i.toNat < 8 := by
    simp only [List.mem_cons, List.not_mem_nil, or_false, ← UInt8.toNat_inj, UInt8.reduceToNat]
    omega
  rw [slotsHolding, List.mem_filter, hmem]

theorem sorted_slotsHolding (t : MemoryTypeTable) (mt : UInt8) :
    (t.slotsHolding mt).Pairwise (· < ·) :=
  List.Pairwise.filter _ (by decide)

section Slotted

variable (h : t.layout ≠ .inEntry)
include h

theorem find_of_slotted (mt : UInt8) : t.find mt =
    (t.slotsHolding mt).foldl (fun found i => found ||| (1 : UInt8) <<< i) 0 := by
  unfold find
  split
  · contradiction
  · rfl

theorem findFirst?_of_slotted (mt : UInt8) : t.findFirst? mt = (t.slotsHolding mt).head? := by
  unfold findFirst?
  split
  · contradiction
  · rfl

/-- The slots that stand for a type are marked. -/
theorem testBit_find (mt : UInt8) (j : Nat) :
    (t.find mt).toNat.testBit j = true ↔ ∃ i ∈ t.slotsHolding mt, i.toNat = j := by
  rw [find_of_slotted h, Mark.testBit_foldl fun j hj => (mem_slotsHolding.mp hj).1]
  simp

theorem testBit_find_slot (mt i : UInt8) : (t.find mt).toNat.testBit i.toNat = true ↔
    i.toNat < 8 ∧ holds t.layout (t.get i) mt = true := by
  rw [testBit_find h, ← mem_slotsHolding]
  simp [UInt8.toNat_inj]

/-- The first slot found is the lowest mark. -/
theorem findFirst?_eq_some_iff (mt i : UInt8) : t.findFirst? mt = some i ↔
    (t.find mt).toNat.testBit i.toNat = true ∧
      ∀ j < i.toNat, (t.find mt).toNat.testBit j = false := by
  simp only [← Bool.not_eq_true, testBit_find h, findFirst?_of_slotted h]
  constructor
  · intro hhead
    obtain ⟨rest, hslots⟩ := List.head?_eq_some_iff.mp hhead
    have hsorted := sorted_slotsHolding t mt
    rw [hslots] at hsorted ⊢
    refine ⟨⟨i, List.mem_cons_self .., rfl⟩, ?_⟩
    rintro j hj ⟨k, hk, rfl⟩
    rcases List.mem_cons.mp hk with rfl | hk
    · exact Nat.lt_irrefl _ hj
    · have hlt := UInt8.lt_iff_toNat_lt.mp (List.rel_of_pairwise_cons hsorted hk)
      omega
  · rintro ⟨⟨k, hk, hki⟩, hleast⟩
    obtain rfl := UInt8.toNat_inj.mp hki
    have hsorted := sorted_slotsHolding t mt
    cases hslots : t.slotsHolding mt with
    | nil =>
      rw [hslots] at hk
      cases hk
    | cons first rest =>
      rw [hslots] at hk hsorted
      rcases List.mem_cons.mp hk with rfl | hk
      · rfl
      · have hlt := UInt8.lt_iff_toNat_lt.mp (List.rel_of_pairwise_cons hsorted hk)
        have hfirst : first ∈ t.slotsHolding mt := by
          rw [hslots]
          exact List.mem_cons_self ..
        exact absurd ⟨first, hfirst, rfl⟩ (hleast first.toNat hlt)

theorem findFirst?_eq_none_iff (mt : UInt8) : t.findFirst? mt = none ↔ t.find mt = 0 := by
  rw [findFirst?_of_slotted h, List.head?_eq_none_iff]
  constructor
  · intro hslots
    rw [find_of_slotted h, hslots]
    rfl
  · intro hfind
    apply List.eq_nil_iff_forall_not_mem.mpr
    intro i hi
    have hmark := (testBit_find h mt i.toNat).mpr ⟨i, hi, rfl⟩
    rw [hfind] at hmark
    simp at hmark

/-- A type that fits in a slot is found where it was set. -/
theorem testBit_find_set (hs : slot? t.layout index = some slot) (hmt : mt.toNat < 2 ^ slot.width) :
    ((t.set index mt).find mt).toNat.testBit (index.toNat % 8) = true := by
  have hmod : (index % 8).toNat = index.toNat % 8 := UInt8.toNat_mod ..
  have hget : (t.set index mt).get (index % 8) = mt := by
    rw [get_set_same hs (by rw [hmod, Nat.mod_mod]), Nat.mod_eq_of_lt hmt, UInt8.ofNat_toNat]
  have hlayout : (t.set index mt).layout ≠ .inEntry := by rwa [layout_set]
  rw [← hmod, testBit_find_slot hlayout, hget, holds]
  refine ⟨by omega, ?_⟩
  rw [beq_self_eq_true, Bool.true_or]

end Slotted

/-- A slot value stands for a type if it is that type, or on AArch64 if both its halves are. -/
def StandsFor (arch : Architecture) (held mt : UInt8) : Prop :=
  held = mt ∨ arch = .aarch64 ∧ held.toNat / 16 = mt.toNat ∧ held.toNat % 16 = mt.toNat

/-- What a table tells after its slots have been set one after the other. -/
structure Remembers (arch : Architecture) (t : MemoryTypeTable) (sets : List (UInt8 × UInt8)) :
    Prop where
  initial : ∀ index slot, Engine.slotBits? arch index = some slot →
    t.get index = .ofNat (t.value.toNat / 2 ^ slot.low % 2 ^ slot.width)
  get : ∀ index slot, Engine.slotBits? arch index = some slot → (t.setAll sets).get index =
    match lastSet? sets index with
    | some mt => .ofNat (mt.toNat % 2 ^ slot.width)
    | none => t.get index
  outside : ∀ i, (∀ s ∈ sets, ∀ slot, Engine.slotBits? arch s.1 = some slot → slot.has i = false) →
    (t.setAll sets).value.bit i = t.value.bit i
  find_iff : ∀ mt i : UInt8, ((t.setAll sets).find mt).toNat.testBit i.toNat = true ↔
    i.toNat < 8 ∧ StandsFor arch ((t.setAll sets).get i) mt
  first_iff : ∀ mt i : UInt8, (t.setAll sets).findFirst? mt = some i ↔
    ((t.setAll sets).find mt).toNat.testBit i.toNat = true ∧
      ∀ j < i.toNat, ((t.setAll sets).find mt).toNat.testBit j = false
  none_iff : ∀ mt, (t.setAll sets).findFirst? mt = none ↔ (t.setAll sets).find mt = 0
  found : ∀ (index mt : UInt8) slot, Engine.slotBits? arch index = some slot →
    mt.toNat < 2 ^ slot.width →
    (((t.setAll sets).set index mt).find mt).toNat.testBit (index.toNat % 8) = true

section Registers

variable {arch : Architecture} {layout : SlotLayout}

/-- The layouts of the registers that have slots. -/
def LaidOut (arch : Architecture) (layout : SlotLayout) : Prop :=
  arch = .x86_64 ∧ layout = .pat ∨ arch = .aarch64 ∧ layout = .mair

theorem LaidOut.slot?_eq (h : LaidOut arch layout) (index : UInt8) :
    slot? layout index = Engine.slotBits? arch index := by
  rcases h with ⟨rfl, rfl⟩ | ⟨rfl, rfl⟩ <;> rfl

theorem LaidOut.ne_inEntry (h : LaidOut arch layout) : layout ≠ .inEntry := by
  rcases h with ⟨rfl, rfl⟩ | ⟨rfl, rfl⟩ <;> exact nofun

theorem LaidOut.holds_iff (h : LaidOut arch layout) (held mt : UInt8) :
    holds layout held mt = true ↔ StandsFor arch held mt := by
  unfold holds StandsFor
  rcases h with ⟨rfl, rfl⟩ | ⟨rfl, rfl⟩
  · simp
  · simp only [beq_self_eq_true, Bool.true_and, Bool.or_eq_true, beq_iff_eq, Bool.and_eq_true,
      true_and]
    refine or_congr Iff.rfl ?_
    omega

theorem LaidOut.remembers (h : LaidOut arch t.layout) (sets : List (UInt8 × UInt8)) :
    Remembers arch t sets := by
  have hlayout := layout_setAll t sets
  have hslotted : (t.setAll sets).layout ≠ .inEntry := by
    rw [hlayout]
    exact h.ne_inEntry
  constructor
  case initial =>
    intro index slot hs
    rw [← h.slot?_eq] at hs
    simp only [MemoryTypeTable.get, hs]
    apply UInt8.toNat_inj.mp
    rw [UInt64.toNat_toUInt8, BitField.toNat_get (fits_slot hs), UInt8.toNat_ofNat']
  case get =>
    intro index slot hs
    rw [← h.slot?_eq] at hs
    exact get_setAll hs sets
  case outside =>
    intro i hout
    refine bit_setAll t sets fun s hmem slot hs => hout s hmem slot ?_
    rwa [← h.slot?_eq]
  case find_iff =>
    intro mt i
    rw [testBit_find_slot hslotted, hlayout, h.holds_iff]
  case first_iff => exact findFirst?_eq_some_iff hslotted
  case none_iff => exact findFirst?_eq_none_iff hslotted
  case found =>
    intro index mt slot hs hmt
    rw [← h.slot?_eq, ← hlayout] at hs
    exact testBit_find_set hslotted hs hmt

/-- The five high bits of a byte of the PAT are in no slot. -/
theorem not_has_pat {i : Nat} (hi : 3 ≤ i % 8) (index : UInt8) (slot : BitField)
    (hs : Engine.slotBits? .x86_64 index = some slot) : slot.has i = false := by
  cases hs
  rw [← Bool.not_eq_true, BitField.has_iff]
  simp only
  omega

end Registers

/-- Whatever a register holds and whatever slots are set. -/
theorem sets_remembered (value : Word) (sets : List (UInt8 × UInt8)) :
    (∃ t, ofRegister .x86_64 value = .ok t ∧ t.value = value ∧ Remembers .x86_64 t sets ∧
      ∀ i, 3 ≤ i % 8 → (t.setAll sets).value.bit i = value.bit i) ∧
    (∃ t, ofRegister .aarch64 value = .ok t ∧ t.value = value ∧ Remembers .aarch64 t sets) ∧
    ∃ t, ofRegister (.riscv64 .thead) value = .ok t ∧ t.value = value ∧ t.setAll sets = t := by
  refine ⟨⟨⟨.pat, value⟩, rfl, rfl, ?_, ?_⟩, ⟨⟨.mair, value⟩, rfl, rfl, ?_⟩, ⟨.inEntry, value⟩, rfl,
    rfl, setAll_inEntry rfl sets⟩
  · exact LaidOut.remembers (.inl ⟨rfl, rfl⟩) sets
  · intro i hi
    have h := LaidOut.remembers (t := ⟨.pat, value⟩) (.inl ⟨rfl, rfl⟩) sets
    exact h.outside i fun s _ slot hs => not_has_pat hi s.1 slot hs
  · exact LaidOut.remembers (.inr ⟨rfl, rfl⟩) sets

end MemoryTypeTable

end Paging
