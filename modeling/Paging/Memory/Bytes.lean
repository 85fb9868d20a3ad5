import Paging.Word

/-!
# Bytes of words and of memories

Words are stored least significant byte first. `overwrite` lays bytes over an array from a position
on; `getElem?_overwrite` says what every byte is afterwards.
-/

namespace Paging.Bytes

/-- The number that bytes stand for, least significant first. -/
def toNat : List UInt8 → Nat
  | [] => 0
  | b :: bs => b.toNat + 256 * toNat bs

/-- The `count` low bytes of a number, least significant first. -/
def ofNat : Nat → Nat → List UInt8
  | 0, _ => []
  | count + 1, n => UInt8.ofNat n :: ofNat count (n / 256)

def toWord (bs : List UInt8) : Word := UInt64.ofNat (toNat bs)

def ofWord (w : Word) : List UInt8 := ofNat 8 w.toNat

/-- Lays bytes over the array from position `start` on; what would fall outside is dropped. -/
def overwrite (bytes : Array UInt8) (start : Nat) : List UInt8 → Array UInt8
  | [] => bytes
  | b :: bs => overwrite (bytes.setIfInBounds start b) (start + 1) bs

/-- The array with zeros behind it, up to `size` bytes. -/
def grow (bytes : Array UInt8) (size : Nat) : Array UInt8 :=
  bytes ++ Array.replicate (size - bytes.size) 0

def slice (bytes : Array UInt8) (start stop : Nat) : List UInt8 := (bytes.extract start stop).toList

theorem length_ofNat (count n : Nat) : (ofNat count n).length = count := by
  induction count generalizing n with
  | zero => rfl
  | succ count ih => simp [ofNat, ih]

theorem toNat_ofNat (count n : Nat) : toNat (ofNat count n) = n % 256 ^ count := by
  induction count generalizing n with
  | zero => simp [ofNat, toNat, Nat.mod_one]
  | succ count ih =>
    have h := Nat.mod_mul (x := n) (a := 256) (b := 256 ^ count)
    simp only [ofNat, toNat, ih, UInt8.toNat_ofNat', Nat.pow_succ']
    omega

theorem toNat_lt (bs : List UInt8) : toNat bs < 256 ^ bs.length := by
  induction bs with
  | nil => simp [toNat]
  | cons b bs ih =>
    have := b.toNat_lt
    simp only [toNat, List.length_cons, Nat.pow_succ']
    omega

theorem ofNat_toNat (bs : List UInt8) : ofNat bs.length (toNat bs) = bs := by
  induction bs with
  | nil => rfl
  | cons b bs ih =>
    have hb : b.toNat < 256 := b.toNat_lt
    have hdiv : (b.toNat + 256 * toNat bs) / 256 = toNat bs := by omega
    have hmod : UInt8.ofNat (b.toNat + 256 * toNat bs) = b := by
      apply UInt8.toNat_inj.mp
      simp only [UInt8.toNat_ofNat']
      omega
    simp only [List.length_cons, ofNat, toNat, hdiv, hmod, ih]

theorem length_ofWord (w : Word) : (ofWord w).length = 8 := length_ofNat ..

theorem toWord_ofWord (w : Word) : toWord (ofWord w) = w := by
  have := w.toNat_lt
  rw [toWord, ofWord, toNat_ofNat, Nat.mod_eq_of_lt (by simpa using this), UInt64.ofNat_toNat]

theorem ofWord_toWord {bs : List UInt8} (h : bs.length = 8) : ofWord (toWord bs) = bs := by
  have hlt := toNat_lt bs
  rw [h] at hlt
  rw [ofWord, toWord, UInt64.toNat_ofNat', Nat.mod_eq_of_lt (by simpa using hlt)]
  have := ofNat_toNat bs
  rwa [h] at this

theorem size_overwrite (bytes : Array UInt8) (start : Nat) (bs : List UInt8) :
    (overwrite bytes start bs).size = bytes.size := by
  induction bs generalizing bytes start with
  | nil => rfl
  | cons b bs ih => simp [overwrite, ih]

/-- The bytes laid over are seen where they were put and all others stay. -/
theorem getElem?_overwrite (bytes : Array UInt8) (start : Nat) (bs : List UInt8) (i : Nat)
    (hi : i < bytes.size) :
    (overwrite bytes start bs)[i]? =
      if start ≤ i ∧ i < start + bs.length then bs[i - start]? else bytes[i]? := by
  induction bs generalizing bytes start with
  | nil =>
    rw [overwrite, if_neg (by simp)]
  | cons b bs ih =>
    rw [overwrite, ih _ _ (by simpa using hi)]
    by_cases h : start = i
    · subst h
      simp [hi, show ¬ start + 1 ≤ start by omega]
    · rw [Array.getElem?_setIfInBounds_ne h]
      by_cases hin : start + 1 ≤ i ∧ i < start + 1 + bs.length
      · rw [if_pos hin, if_pos (by simp; omega), show i - start = (i - (start + 1)) + 1 by omega,
          List.getElem?_cons_succ]
      · rw [if_neg hin, if_neg (by simp; omega)]

end Paging.Bytes
