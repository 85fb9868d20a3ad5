/-!
# Words and bit fields

A page-table entry, a control register and an address are 64-bit words read through named bits and
fields. A field is a run of adjacent bits: `get` moves it down to bit zero and `put` overwrites it.
The statements give every operation through single bits (`bit_and`, `bit_get`, `bit_put`, …), which
is how the codecs are reasoned about, and a word is determined by its bits (`ext_bit`).
-/

namespace Paging

-- Powers of natural numbers are those of the core, whatever else is imported.
attribute [instance (1100), default_instance (10100)] instPowNat

abbrev Word := UInt64

namespace Word

/-- Bit `i`, which is false from bit 64 on. -/
def bit (w : Word) (i : Nat) : Bool := w.toBitVec.getLsbD i

/-- The word whose only set bit is bit `i`, for `i` below 64. -/
def single (i : Nat) : Word := 1 <<< UInt64.ofNat i

/-- `w` with bit `i` made `value`. -/
def withBit (w : Word) (i : Nat) (value : Bool) : Word :=
  if value then w ||| single i else w &&& ~~~single i

def isPowerOfTwo (w : Word) : Bool := w != 0 && w &&& (w - 1) == 0

/-- The sum, unless it needs more than 64 bits. -/
def add? (a b : Word) : Option Word :=
  if a.toNat + b.toNat < 2 ^ 64 then some (a + b) else none

/-- The product, unless it needs more than 64 bits. -/
def mul? (a b : Word) : Option Word :=
  if a.toNat * b.toNat < 2 ^ 64 then some (a * b) else none

theorem add?_eq_some_iff {a b c : Word} : add? a b = some c ↔ c.toNat = a.toNat + b.toNat := by
  unfold add?
  constructor
  · intro h
    split at h
    · cases h
      rw [UInt64.toNat_add, Nat.mod_eq_of_lt (by assumption)]
    · cases h
  · intro h
    have hlt := c.toNat_lt
    rw [if_pos (by omega), Option.some.injEq]
    apply UInt64.toNat_inj.mp
    rw [UInt64.toNat_add, Nat.mod_eq_of_lt (by omega), h]

theorem mul?_eq_some_iff {a b c : Word} : mul? a b = some c ↔ c.toNat = a.toNat * b.toNat := by
  unfold mul?
  constructor
  · intro h
    split at h
    · cases h
      rw [UInt64.toNat_mul, Nat.mod_eq_of_lt (by assumption)]
    · cases h
  · intro h
    have hlt := c.toNat_lt
    rw [if_pos (by omega), Option.some.injEq]
    apply UInt64.toNat_inj.mp
    rw [UInt64.toNat_mul, Nat.mod_eq_of_lt (by omega), h]

theorem add?_comm (a b : Word) : add? a b = add? b a := by
  rw [add?, add?, Nat.add_comm, UInt64.add_comm]

/-- A product and a sum after it need no more than 64 bits if the result does not. -/
theorem mul?_bind_add?_eq_some_iff {a b c d : Word} :
    ((mul? a b).bind fun product => add? product d) = some c ↔
      c.toNat = a.toNat * b.toNat + d.toNat := by
  simp only [Option.bind_eq_some_iff, mul?_eq_some_iff, add?_eq_some_iff]
  constructor
  · rintro ⟨product, hproduct, hsum⟩
    rw [hsum, hproduct]
  · intro hsum
    have hlt := c.toNat_lt
    have hproduct : (UInt64.ofNat (a.toNat * b.toNat)).toNat = a.toNat * b.toNat := by
      rw [UInt64.toNat_ofNat', Nat.mod_eq_of_lt (by omega)]
    exact ⟨_, hproduct, by rw [hproduct, hsum]⟩

theorem bit_eq_testBit (w : Word) (i : Nat) : bit w i = w.toNat.testBit i := rfl

theorem ext_bit {a b : Word} (h : ∀ i < 64, bit a i = bit b i) : a = b :=
  UInt64.toBitVec_inj.mp (BitVec.eq_of_getLsbD_eq h)

theorem bit_of_le (w : Word) {i : Nat} (h : 64 ≤ i) : bit w i = false :=
  BitVec.getLsbD_of_ge _ _ h

theorem bit_and (a b : Word) (i : Nat) : bit (a &&& b) i = (bit a i && bit b i) := by
  simp [bit]

theorem bit_or (a b : Word) (i : Nat) : bit (a ||| b) i = (bit a i || bit b i) := by
  simp [bit]

theorem bit_not (a : Word) (i : Nat) : bit (~~~a) i = (decide (i < 64) && !bit a i) := by
  simp [bit]

theorem bit_zero (i : Nat) : bit 0 i = false := by
  simp [bit]

theorem bit_ones {i : Nat} (h : i < 64) : bit (~~~0) i = true := by
  rw [bit_not, bit_zero, decide_eq_true h]
  rfl

theorem bit_shiftLeft (w : Word) {k : Nat} (hk : k < 64) (i : Nat) :
    bit (w <<< UInt64.ofNat k) i = (decide (i < 64) && decide (k ≤ i) && bit w (i - k)) := by
  have : (!decide (i < k)) = decide (k ≤ i) := by grind
  simp [bit, Nat.mod_eq_of_lt hk, this]

theorem bit_shiftRight (w : Word) {k : Nat} (hk : k < 64) (i : Nat) :
    bit (w >>> UInt64.ofNat k) i = bit w (k + i) := by
  simp [bit, Nat.mod_eq_of_lt hk]

theorem bit_one (i : Nat) : bit 1 i = decide (i = 0) := by
  rw [bit_eq_testBit]
  show Nat.testBit 1 i = decide (i = 0)
  cases i <;> simp [Nat.testBit_succ]

theorem bit_single {k : Nat} (hk : k < 64) (i : Nat) : bit (single k) i = decide (i = k) := by
  rw [single, bit_shiftLeft _ hk, bit_one]
  grind

theorem bit_withBit (w : Word) {k : Nat} (hk : k < 64) (v : Bool) (i : Nat) :
    bit (withBit w k v) i = if i = k then v else bit w i := by
  by_cases h : i < 64
  · cases v <;> simp [withBit, bit_and, bit_or, bit_not, bit_single hk] <;> grind
  · rw [bit_of_le _ (by omega), bit_of_le _ (by omega), if_neg (by omega)]

end Word

/-- The `width` bits from bit `low` on. -/
structure BitField where
  low : Nat
  width : Nat

namespace BitField

def mask (f : BitField) : Word := UInt64.ofNat (2 ^ f.width - 1) <<< UInt64.ofNat f.low

def get (f : BitField) (w : Word) : Word := (w &&& f.mask) >>> UInt64.ofNat f.low

def put (f : BitField) (w v : Word) : Word :=
  (w &&& ~~~f.mask) ||| ((v <<< UInt64.ofNat f.low) &&& f.mask)

def Fits (f : BitField) : Prop := f.low < 64 ∧ f.low + f.width ≤ 64

def has (f : BitField) (i : Nat) : Bool := decide (f.low ≤ i) && decide (i < f.low + f.width)

theorem has_iff {f : BitField} {i : Nat} :
    f.has i = true ↔ f.low ≤ i ∧ i < f.low + f.width := by
  rw [has, Bool.and_eq_true, decide_eq_true_eq, decide_eq_true_eq]

theorem bit_mask {f : BitField} (hf : f.Fits) (i : Nat) : Word.bit f.mask i = f.has i := by
  obtain ⟨hl, hw⟩ := hf
  have hones : Word.bit (UInt64.ofNat (2 ^ f.width - 1)) (i - f.low) =
      decide (i - f.low < f.width) := by
    have hpow : 2 ^ f.width ≤ 2 ^ 64 := Nat.pow_le_pow_right (by decide) (by omega)
    have hpos : 0 < 2 ^ f.width := Nat.two_pow_pos _
    rw [Word.bit_eq_testBit, UInt64.toNat_ofNat', Nat.mod_eq_of_lt (by omega),
      Nat.testBit_two_pow_sub_one]
  rw [mask, Word.bit_shiftLeft _ hl, hones, has]
  grind

theorem bit_get {f : BitField} (hf : f.Fits) (w : Word) (i : Nat) :
    Word.bit (f.get w) i = (decide (i < f.width) && Word.bit w (f.low + i)) := by
  rw [get, Word.bit_shiftRight _ hf.1, Word.bit_and, bit_mask hf, has]
  grind

theorem bit_put {f : BitField} (hf : f.Fits) (w v : Word) (i : Nat) :
    Word.bit (f.put w v) i = if f.has i then Word.bit v (i - f.low) else Word.bit w i := by
  by_cases h : i < 64
  · rw [put, Word.bit_or, Word.bit_and, Word.bit_and, Word.bit_not, Word.bit_shiftLeft _ hf.1,
      bit_mask hf]
    simp only [has]
    grind
  · have := hf.2
    rw [Word.bit_of_le _ (by omega), Word.bit_of_le w (by omega)]
    simp only [has]
    grind

/-- Reading a field back gives the low bits of what was put there. -/
theorem get_put {f : BitField} (hf : f.Fits) (w v : Word) :
    f.get (f.put w v) = (⟨0, f.width⟩ : BitField).get v := by
  have h0 : (⟨0, f.width⟩ : BitField).Fits := ⟨Nat.zero_lt_succ _, by have := hf.2; simp; omega⟩
  apply Word.ext_bit
  intro i _
  rw [bit_get hf, bit_get h0, bit_put hf, has]
  grind

/-- The second of two writes to a field wins. -/
theorem put_put {f : BitField} (hf : f.Fits) (w u v : Word) : f.put (f.put w u) v = f.put w v := by
  apply Word.ext_bit
  intro i _
  rw [bit_put hf, bit_put hf, bit_put hf]
  grind

end BitField

end Paging
