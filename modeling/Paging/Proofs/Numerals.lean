import Mathlib
import Paging.Text.Numeral

/-!
# Texts that are read as numbers

Digits in a base, each in either case, spell a number (`Digits.Spells`), and reading them gives that
number (`Digits.value?_eq_some_iff`). A text writes a number if it spells it behind `0x` once all
underscores are deleted, or in decimal without any (`Numeral.Writes`). These are the texts that are
read, as long as the number fits in 64 bits, and every other text is refused
(`Numeral.reads_written`). It makes no difference whether the whole number is held to 64 bits or
every step on the way to it (`Numeral.extendWord?_eq`).
-/

namespace Paging

namespace Digits

variable {base d m n : Nat} {c : Char} {cs : List Char}

/-! ### Single digits -/

/-- A digit of a base, in either case, and what it is worth. -/
def IsDigit (base : Nat) (c : Char) (d : Nat) : Prop := d < base ∧ c.toLower = char d

/-- There are no digits from `g` on. -/
theorem valueOf?_of_le (hc : 103 ≤ c.toNat) : valueOf? base c = none := by
  have hle : ∀ e : Char, e.toNat < 103 → ¬c ≤ e := fun e he h =>
    absurd (Nat.le_trans hc h) (Nat.not_le.mpr he)
  simp [valueOf?, hle]

theorem toLower_of_le (hc : 103 ≤ c.toNat) : c.toLower = c := by
  have hle : ¬c.val ≤ 'Z'.val := fun h =>
    absurd (Nat.le_trans hc (show c.toNat ≤ 'Z'.toNat from h)) (by decide)
  exact dif_neg fun h => hle h.2

theorem valueOf?_lt (h : valueOf? base c = some d) : d < base := by
  simp only [valueOf?, Option.filter_eq_some_iff, decide_eq_true_eq] at h
  exact h.2

theorem valueOf?_hex_iff : valueOf? 16 c = some d ↔ IsDigit 16 c d := by
  by_cases hd : d < 16
  · by_cases hc : c.toNat < 103
    · have hall : ∀ n < 103, ∀ d < 16,
          (valueOf? 16 (Char.ofNat n) = some d ↔ (Char.ofNat n).toLower = char d) := by
        decide +kernel
      simpa [IsDigit, hd] using hall c.toNat hc d hd
    · rw [Nat.not_lt] at hc
      have hchar : ∀ d < 16, (char d).toNat < 103 := by decide
      simp only [valueOf?_of_le hc, IsDigit, toLower_of_le hc, reduceCtorEq, false_iff, not_and]
      rintro - rfl
      exact absurd (hchar d hd) (Nat.not_lt.mpr hc)
  · exact ⟨fun h => absurd (valueOf?_lt h) hd, fun h => absurd h.1 hd⟩

theorem valueOf?_eq_some_iff (hb : base ≤ 16) : valueOf? base c = some d ↔ IsDigit base c d := by
  have hhex : valueOf? base c = some d ↔ valueOf? 16 c = some d ∧ d < base := by
    simp only [valueOf?, Option.filter_eq_some_iff]
    grind
  rw [hhex, valueOf?_hex_iff]
  unfold IsDigit
  grind

theorem isDigit_toLower_iff : IsDigit base c.toLower d ↔ IsDigit base c d := by
  rw [IsDigit, IsDigit, Char.toLower_toLower_eq_toLower]

/-! ### Texts of digits -/

/-- At least one digit, and the number that they stand for. -/
structure Spells (base : Nat) (cs : List Char) (n : Nat) : Prop where
  nonempty : cs ≠ []
  digits : ∃ ds, List.Forall₂ (IsDigit base) cs ds ∧ Nat.ofDigits base ds.reverse = n

theorem foldl_eq_ofDigits (base : Nat) (ds : List Nat) :
    ds.foldl (fun n d => n * base + d) 0 = Nat.ofDigits base ds.reverse := by
  rw [Nat.ofDigits_eq_foldr, List.foldr_reverse]
  congr 1
  funext n d
  rw [Nat.cast_id, Nat.add_comm, Nat.mul_comm]

theorem extend?_eq_some_iff (hb : base ≤ 16) : extend? base m cs = some n ↔
    ∃ ds, List.Forall₂ (IsDigit base) cs ds ∧ ds.foldl (fun n d => n * base + d) m = n := by
  induction cs generalizing m with
  | nil => simp [extend?]
  | cons c cs ih =>
    simp only [extend?, Option.bind_eq_some_iff, valueOf?_eq_some_iff hb, ih,
      List.forall₂_cons_left_iff]
    constructor
    · rintro ⟨d, hd, ds, hds, rfl⟩
      exact ⟨d :: ds, ⟨d, ds, hd, hds, rfl⟩, rfl⟩
    · rintro ⟨_, ⟨d, ds, hd, hds, rfl⟩, rfl⟩
      exact ⟨d, hd, ds, hds, rfl⟩

theorem value?_eq_some_iff (hb : base ≤ 16) : value? base cs = some n ↔ Spells base cs n := by
  have hspells : Spells base cs n ↔ cs ≠ [] ∧ extend? base 0 cs = some n := by
    rw [extend?_eq_some_iff hb]
    simp only [foldl_eq_ofDigits]
    exact ⟨fun ⟨hne, hds⟩ => ⟨hne, hds⟩, fun ⟨hne, hds⟩ => ⟨hne, hds⟩⟩
  rw [hspells, value?]
  cases cs <;> simp

theorem not_mem_of_extend? (h : extend? base m cs = some n) (hc : valueOf? base c = none) :
    c ∉ cs := by
  induction cs generalizing m with
  | nil => exact List.not_mem_nil
  | cons e cs ih =>
    obtain ⟨d, he, hrest⟩ := Option.bind_eq_some_iff.mp h
    rw [List.mem_cons, not_or]
    refine ⟨?_, ih hrest⟩
    rintro rfl
    rw [hc] at he
    cases he

theorem not_mem_of_value? (h : value? base cs = some n) (hc : valueOf? base c = none) :
    c ∉ cs := by
  unfold value? at h
  split at h
  · cases h
  · exact not_mem_of_extend? h hc

theorem Spells.toLower_iff : Spells base (cs.map Char.toLower) n ↔ Spells base cs n := by
  have hdigits : ∀ ds, List.Forall₂ (IsDigit base) (cs.map Char.toLower) ds ↔
      List.Forall₂ (IsDigit base) cs ds := by
    intro ds
    simp only [List.forall₂_map_left_iff, isDigit_toLower_iff]
  constructor
  · rintro ⟨hne, ds, hds, hn⟩
    exact ⟨by simpa using hne, ds, (hdigits ds).mp hds, hn⟩
  · rintro ⟨hne, ds, hds, hn⟩
    exact ⟨by simpa using hne, ds, (hdigits ds).mpr hds, hn⟩

theorem extend?_zeros (hbase : 0 < base) (count : Nat) :
    extend? base 0 (List.replicate count '0') = some 0 := by
  induction count with
  | zero => rfl
  | succ count ih =>
    have hzero : valueOf? base '0' = some 0 := by
      simp [valueOf?, hbase]
    rw [List.replicate_succ, extend?, hzero, Option.bind_some, Nat.zero_mul, ih]

theorem value?_padded (h2 : 2 ≤ base) (hb : base ≤ 16) (zeros n : Nat) :
    value? base (List.replicate zeros '0' ++ ofNat base n) = some n := by
  have hne : ofNat base n ≠ [] := ofNat_ne_nil base n
  rw [value?, if_neg (by simp [hne]), extend?_append, extend?_zeros (by omega), Option.bind_some,
    extend?_ofNat h2 hb]

end Digits

namespace Numeral

variable {base n : Nat} {w : Word} {cs body : List Char}

/-! ### Numbers of 64 bits -/

theorem toWord?_eq_some_iff : toWord? n = some w ↔ n = w.toNat := by
  have hw : w.toNat < 2 ^ 64 := w.toNat_lt
  unfold toWord?
  split
  · rename_i hn
    rw [Option.some.injEq, ← UInt64.toNat_inj, UInt64.toNat_ofNat', Nat.mod_eq_of_lt hn]
  · simp
    omega

theorem toWord?_eq_none_iff : toWord? n = none ↔ 2 ^ 64 ≤ n := by
  simp [toWord?]

/-- As `Digits.extend?`, in words: a step that needs more than 64 bits is refused at once. -/
def extendWord? (base : Nat) (w : Word) : List Char → Option Word
  | [] => some w
  | c :: cs => do
    let d ← Digits.valueOf? base c
    let scaled ← w.mul? (UInt64.ofNat base)
    let next ← scaled.add? (UInt64.ofNat d)
    extendWord? base next cs

/-- More digits never make a number smaller. -/
theorem le_of_extend? (hbase : 0 < base) {m : Nat} (h : Digits.extend? base m cs = some n) :
    m ≤ n := by
  induction cs generalizing m with
  | nil => exact Nat.le_of_eq (Option.some.inj h)
  | cons c cs ih =>
    obtain ⟨d, -, hrest⟩ := Option.bind_eq_some_iff.mp h
    have hstep := ih hrest
    have hscaled := Nat.le_mul_of_pos_right m hbase
    omega

/-- A step in words, which succeeds as long as the number fits. -/
theorem mul?_bind_add? {d : Nat} (hb : base ≤ 16) (hd : d < base) :
    ((w.mul? (UInt64.ofNat base)).bind fun scaled => scaled.add? (UInt64.ofNat d)) =
      toWord? (w.toNat * base + d) := by
  have hbase : (UInt64.ofNat base).toNat = base := by
    rw [UInt64.toNat_ofNat', Nat.mod_eq_of_lt (by omega)]
  have hdigit : (UInt64.ofNat d).toNat = d := by
    rw [UInt64.toNat_ofNat', Nat.mod_eq_of_lt (by omega)]
  apply Option.ext
  intro next
  rw [Word.mul?_bind_add?_eq_some_iff, toWord?_eq_some_iff, hbase, hdigit, eq_comm]

theorem extendWord?_eq (h0 : 0 < base) (hb : base ≤ 16) (w : Word) (cs : List Char) :
    extendWord? base w cs = (Digits.extend? base w.toNat cs).bind toWord? := by
  induction cs generalizing w with
  | nil => exact (toWord?_eq_some_iff.mpr rfl).symm
  | cons c cs ih =>
    rw [extendWord?, Digits.extend?]
    cases hc : Digits.valueOf? base c with
    | none => rfl
    | some d =>
      have hstep := mul?_bind_add? (w := w) hb (Digits.valueOf?_lt hc)
      simp only [Option.bind_eq_bind, Option.bind_some]
      rw [← Option.bind_assoc, hstep]
      cases hnext : toWord? (w.toNat * base + d) with
      | some next =>
        rw [Option.bind_some, ih next, ← toWord?_eq_some_iff.mp hnext]
      | none =>
        -- the number has outgrown 64 bits, and more digits do not make it smaller
        have hlarge := toWord?_eq_none_iff.mp hnext
        rw [Option.bind_none, eq_comm, Option.bind_eq_none_iff]
        intro n hn
        exact toWord?_eq_none_iff.mpr (Nat.le_trans hlarge (le_of_extend? h0 hn))

/-! ### Signs and underscores -/

/-- Digits, with a plus sign before them or without. -/
def Unsigned (base : Nat) (cs : List Char) (n : Nat) : Prop :=
  ∃ digits, (cs = digits ∨ cs = '+' :: digits) ∧ Digits.Spells base digits n

/-- The number that a text writes: in hexadecimal behind `0x`, where underscores do not count, and
in decimal without that. -/
def Writes (text : String) (n : Nat) : Prop :=
  (∃ body, text = "0x" ++ body ∧ Unsigned 16 (body.toList.filter (· != '_')) n) ∨
    (∀ body, text ≠ "0x" ++ body) ∧ '_' ∉ text.toList ∧ Unsigned 10 text.toList n

/-- A text with underscores put into it. -/
inductive Spaced : List Char → List Char → Prop where
  | nil : Spaced [] []
  | keep (c : Char) {text cs : List Char} (h : Spaced text cs) : Spaced (c :: text) (c :: cs)
  | underscore {text cs : List Char} (h : Spaced text cs) : Spaced ('_' :: text) cs

theorem Spaced.filter_eq {text cs : List Char} (h : Spaced text cs) (hcs : '_' ∉ cs) :
    text.filter (· != '_') = cs := by
  induction h with
  | nil => rfl
  | keep c _ ih =>
    rw [List.mem_cons, not_or] at hcs
    rw [List.filter_cons_of_pos (by simpa using Ne.symm hcs.1), ih hcs.2]
  | underscore _ ih => rw [List.filter_cons_of_neg (by simp), ih hcs]

theorem Spaced.refl (cs : List Char) : Spaced cs cs := by
  induction cs with
  | nil => exact .nil
  | cons c cs ih => exact .keep c ih

theorem spaced_filter (text : List Char) : Spaced text (text.filter (· != '_')) := by
  induction text with
  | nil => exact .nil
  | cons c text ih =>
    by_cases hc : c = '_'
    · subst hc
      rw [List.filter_cons_of_neg (by simp)]
      exact .underscore ih
    · rw [List.filter_cons_of_pos (by simpa using hc)]
      exact .keep c ih

theorem unsigned?_eq_some_iff (hb : base ≤ 16) :
    unsigned? base cs = some n ↔ Unsigned base cs n := by
  unfold unsigned?
  split
  · rename_i rest
    rw [Digits.value?_eq_some_iff hb]
    constructor
    · exact fun h => ⟨rest, .inr rfl, h⟩
    · rintro ⟨digits, rfl | heq, h⟩
      · -- a plus sign is no digit
        exact absurd List.mem_cons_self
          (Digits.not_mem_of_value? ((Digits.value?_eq_some_iff hb).mpr h) rfl)
      · cases heq
        exact h
  · rename_i hplus
    rw [Digits.value?_eq_some_iff hb]
    constructor
    · exact fun h => ⟨cs, .inl rfl, h⟩
    · rintro ⟨digits, rfl | rfl, h⟩
      · exact h
      · exact absurd rfl (hplus digits)

theorem unsigned?_of_value? (hb : base ≤ 16) (h : Digits.value? base cs = some n) :
    unsigned? base cs = some n :=
  (unsigned?_eq_some_iff hb).mpr ⟨cs, .inl rfl, (Digits.value?_eq_some_iff hb).mp h⟩

theorem Unsigned.underscore_not_mem (hb : base ≤ 16) (h : Unsigned base cs n) : '_' ∉ cs := by
  obtain ⟨digits, hcs, hspells⟩ := h
  have hnot : '_' ∉ digits :=
    Digits.not_mem_of_value? ((Digits.value?_eq_some_iff hb).mpr hspells) rfl
  rcases hcs with rfl | rfl
  · exact hnot
  · simpa using hnot

/-! ### Texts -/

theorem word?_hex (body : String) :
    word? ("0x" ++ body) = (unsigned? 16 (body.toList.filter (· != '_'))).bind toWord? := by
  rw [word?, String.toList_append]
  rfl

theorem word?_of_not_hex {text : String} (hx : ∀ body, text ≠ "0x" ++ body) :
    word? text = (unsigned? 10 text.toList).bind toWord? := by
  unfold word? wordOfChars?
  split
  · rename_i cs hcs
    refine absurd (String.toList_inj.mp ?_) (hx (String.ofList cs))
    simp [hcs]
  · rfl

theorem bind_toWord?_eq_some_iff (hb : base ≤ 16) :
    (unsigned? base cs).bind toWord? = some w ↔ Unsigned base cs w.toNat := by
  simp only [Option.bind_eq_some_iff, unsigned?_eq_some_iff hb, toWord?_eq_some_iff]
  exact ⟨fun ⟨_, h, heq⟩ => heq ▸ h, fun h => ⟨_, h, rfl⟩⟩

theorem word?_eq_some_iff {text : String} : word? text = some w ↔ Writes text w.toNat := by
  by_cases hx : ∃ body, text = "0x" ++ body
  · obtain ⟨body, rfl⟩ := hx
    rw [word?_hex, bind_toWord?_eq_some_iff (Nat.le_refl 16)]
    constructor
    · exact fun h => .inl ⟨body, rfl, h⟩
    · rintro (⟨body', heq, h⟩ | ⟨hx, _⟩)
      · have hbody : body = body' := by simpa [← String.toList_inj] using heq
        rwa [hbody]
      · exact absurd rfl (hx body)
  · rw [not_exists] at hx
    rw [word?_of_not_hex hx, bind_toWord?_eq_some_iff (by decide)]
    constructor
    · exact fun h => .inr ⟨hx, h.underscore_not_mem (by decide), h⟩
    · rintro (⟨body, rfl, _⟩ | ⟨_, _, h⟩)
      · exact absurd rfl (hx body)
      · exact h

/-- A text is refused if it writes no number, or one that needs more than 64 bits. -/
theorem word?_eq_none_iff {text : String} :
    word? text = none ↔ ∀ n, Writes text n → 2 ^ 64 ≤ n := by
  constructor
  · intro hnone n hn
    by_contra hlt
    have hword : (UInt64.ofNat n).toNat = n := by
      rw [UInt64.toNat_ofNat', Nat.mod_eq_of_lt (by omega)]
    rw [← hword, ← word?_eq_some_iff, hnone] at hn
    cases hn
  · intro h
    rw [Option.eq_none_iff_forall_ne_some]
    intro w hw
    exact absurd (h _ (word?_eq_some_iff.mp hw)) (Nat.not_le.mpr w.toNat_lt)

/-- Hexadecimal digits in either case are read behind `0x` past all underscores between them. -/
theorem wordOfChars?_hex {digits text : List Char} (hspaced : Spaced text digits)
    (hvalue : Digits.value? 16 digits = some w.toNat) :
    wordOfChars? ('0' :: 'x' :: text) = some w := by
  have hplain : '_' ∉ digits := Digits.not_mem_of_value? hvalue rfl
  show (unsigned? 16 (text.filter (· != '_'))).bind toWord? = some w
  rw [hspaced.filter_eq hplain, unsigned?_of_value? (Nat.le_refl 16) hvalue, Option.bind_some,
    toWord?_eq_some_iff]

theorem word?_decimal (zeros : Nat) (w : Word) :
    word? (String.ofList (List.replicate zeros '0' ++ Digits.ofNat 10 w.toNat)) = some w := by
  have hvalue : Digits.value? 10 (List.replicate zeros '0' ++ Digits.ofNat 10 w.toNat) =
      some w.toNat := Digits.value?_padded (by decide) (by decide) zeros w.toNat
  have hx : ∀ body, String.ofList (List.replicate zeros '0' ++ Digits.ofNat 10 w.toNat) ≠
      "0x" ++ body := by
    intro body heq
    have hmem : 'x' ∉ List.replicate zeros '0' ++ Digits.ofNat 10 w.toNat :=
      Digits.not_mem_of_value? hvalue rfl
    rw [← String.toList_inj, String.toList_ofList, String.toList_append] at heq
    rw [heq] at hmem
    exact hmem (List.mem_append_left _ (by decide))
  rw [word?_of_not_hex hx, String.toList_ofList, unsigned?_of_value? (by decide) hvalue,
    Option.bind_some, toWord?_eq_some_iff]

/-- The texts that are read as a number are those that write one of 64 bits. Among them are all that
are made of the digits of a number with zeros before them, in hexadecimal in either case and with
underscores anywhere behind `0x`. That the digits are held to 64 bits as they are met makes no
difference. -/
theorem reads_written :
    (∀ text w, word? text = some w ↔ Writes text w.toNat) ∧
    (∀ text, word? text = none ↔ ∀ n, Writes text n → 2 ^ 64 ≤ n) ∧
    (∀ (w : Word) zeros digits text,
      digits.map Char.toLower = List.replicate zeros '0' ++ Digits.ofNat 16 w.toNat →
        Spaced text digits → word? ("0x" ++ String.ofList text) = some w) ∧
    (∀ (w : Word) zeros,
      word? (String.ofList (List.replicate zeros '0' ++ Digits.ofNat 10 w.toNat)) = some w) ∧
    ∀ base cs, 0 < base → base ≤ 16 → cs ≠ [] →
      (Digits.value? base cs).bind toWord? = extendWord? base 0 cs := by
  refine ⟨fun _ _ => word?_eq_some_iff, fun _ => word?_eq_none_iff, ?_,
    fun w zeros => word?_decimal zeros w, ?_⟩
  · intro w zeros digits text hdigits hspaced
    have hvalue : Digits.value? 16 digits = some w.toNat := by
      rw [Digits.value?_eq_some_iff (Nat.le_refl 16), ← Digits.Spells.toLower_iff, hdigits,
        ← Digits.value?_eq_some_iff (Nat.le_refl 16)]
      exact Digits.value?_padded (by decide) (by decide) zeros w.toNat
    rw [word?, String.toList_append, String.toList_ofList (l := text)]
    exact wordOfChars?_hex hspaced hvalue
  · intro base cs h0 hb hne
    rw [extendWord?_eq h0 hb, Digits.value?, if_neg (by simpa using hne)]
    rfl

/-- Two zeros, capitals and an underscore at the end. -/
theorem reads_written_spaced :
    "007F0012345000".toList.map Char.toLower =
        List.replicate 2 '0' ++ Digits.ofNat 16 (0x7f0012345000 : Word).toNat ∧
      Spaced "007F00_1234_5000_".toList "007F0012345000".toList ∧
      word? ("0x" ++ String.ofList "007F00_1234_5000_".toList) = some 0x7f0012345000 ∧
      (Digits.value? 10 "4096".toList).bind toWord? = extendWord? 10 0 "4096".toList := by
  have hdigits : "007F0012345000".toList.map Char.toLower =
      List.replicate 2 '0' ++ Digits.ofNat 16 (0x7f0012345000 : Word).toNat := by decide +kernel
  have hspaced : Spaced "007F00_1234_5000_".toList "007F0012345000".toList :=
    spaced_filter "007F00_1234_5000_".toList
  obtain ⟨-, -, hhex, -, hsteps⟩ := reads_written
  exact ⟨hdigits, hspaced, hhex _ _ _ _ hdigits hspaced,
    hsteps 10 _ (by decide) (by decide) (by decide)⟩

example : word? "0x_+_fF" = some 255 := by decide

example : word? "18446744073709551616" = none := by decide

end Numeral

end Paging
