import Paging.Word

/-!
# Digits and numbers

Positional digits in any base from two to sixteen, lower case, without leading zeros, and the number
grammar that reads them back. `Digits.extend?_ofNat` is the round trip.
-/

namespace Paging

namespace Digits

def char (d : Nat) : Char := if d < 10 then Char.ofNat (48 + d) else Char.ofNat (87 + d)

/-- The value of a digit, either case, if it is one in this base. -/
def valueOf? (base : Nat) (c : Char) : Option Nat :=
  let d :=
    if '0' ≤ c ∧ c ≤ '9' then some (c.toNat - 48)
    else if 'a' ≤ c ∧ c ≤ 'f' then some (c.toNat - 87)
    else if 'A' ≤ c ∧ c ≤ 'F' then some (c.toNat - 55)
    else none
  d.filter (· < base)

def ofNat (base n : Nat) : List Char :=
  if n < base ∨ base < 2 then [char n] else ofNat base (n / base) ++ [char (n % base)]
termination_by n
decreasing_by
  rename_i h
  exact Nat.div_lt_self (by omega) (by omega)

/-- Continues a number whose leading digits are worth `n`. -/
def extend? (base : Nat) (n : Nat) : List Char → Option Nat
  | [] => some n
  | c :: cs => (valueOf? base c).bind fun d => extend? base (n * base + d) cs

/-- The number that a non-empty run of digits stands for. -/
def value? (base : Nat) (cs : List Char) : Option Nat :=
  if cs.isEmpty then none else extend? base 0 cs

theorem extend?_append (base n : Nat) (cs ds : List Char) :
    extend? base n (cs ++ ds) = (extend? base n cs).bind fun m => extend? base m ds := by
  induction cs generalizing n with
  | nil => rfl
  | cons c cs ih =>
    simp only [List.cons_append, extend?]
    cases valueOf? base c with
    | none => rfl
    | some d => exact ih _

theorem valueOf?_char {base d : Nat} (hb : base ≤ 16) (hd : d < base) :
    valueOf? base (char d) = some d := by
  have h : ∀ d < 16, valueOf? 16 (char d) = some d := by decide
  have h16 := h d (by omega)
  simp only [valueOf?, Option.filter_eq_some_iff] at h16 ⊢
  exact ⟨h16.1, by simpa using hd⟩

theorem ofNat_ne_nil (base n : Nat) : ofNat base n ≠ [] := by
  rw [ofNat]
  split <;> simp

/-- Digits read back as the number they were written for. -/
theorem extend?_ofNat {base : Nat} (h2 : 2 ≤ base) (h16 : base ≤ 16) (n : Nat) :
    extend? base 0 (ofNat base n) = some n := by
  induction n using Nat.strongRecOn with
  | ind n ih =>
    rw [ofNat]
    split
    · rename_i h
      simp [extend?, valueOf?_char h16 (show n < base by omega)]
    · rename_i h
      have hlt : n / base < n := Nat.div_lt_self (by omega) (by omega)
      have hd := valueOf?_char h16 (Nat.mod_lt n (show 0 < base by omega))
      simp [extend?_append, ih _ hlt, extend?, hd, Nat.div_add_mod']

end Digits

def decimal (n : Nat) : String := String.ofList (Digits.ofNat 10 n)

namespace Hex

/-- Hexadecimal digits behind `0x`. -/
def chars (n : Nat) : List Char := '0' :: 'x' :: Digits.ofNat 16 n

/-- As `chars`, with zeros after the `0x` until the whole is `width` long. -/
def padded (width n : Nat) : List Char :=
  let ds := Digits.ofNat 16 n
  '0' :: 'x' :: (List.replicate (width - 2 - ds.length) '0' ++ ds)

def byte (b : UInt8) : List Char := [Digits.char (b.toNat / 16), Digits.char (b.toNat % 16)]

end Hex

/-- The text of a word with `0x` and no leading zeros. -/
def hex (w : UInt64) : String := String.ofList (Hex.chars w.toNat)

end Paging
