import Paging.Proofs.Numerals
import Paging.Text.HexDump
import Paging.Text.Quoted

/-!
# Hex dumps read back

A printed dump is read line by line: the label of a row up to the colon, its bytes behind that
(`HexDump.ofText?`). What is read are the rows that were printed (`HexDump.ofText?_unlines`). Row
`i` holds the bytes from position `16 * i` on (`HexDump.getElem?_rows`).
-/

namespace Paging

namespace Text

variable {α β : Type}

theorem mapM_map_of_inverse {read : β → Option α} {write : α → β} {as : List α}
    (h : ∀ a ∈ as, read (write a) = some a) : (as.map write).mapM read = some as := by
  induction as with
  | nil => rfl
  | cons a as ih =>
    rw [List.map_cons, List.mapM_cons, h a List.mem_cons_self,
      ih fun a' h' => h a' (List.mem_cons_of_mem _ h')]
    rfl

theorem not_mem_intercalate {sep c : Char} (hc : c ≠ sep) {fs : List (List Char)}
    (h : ∀ f ∈ fs, c ∉ f) : c ∉ [sep].intercalate fs := by
  induction fs with
  | nil => exact List.not_mem_nil
  | cons f fs ih =>
    have hf := h f List.mem_cons_self
    cases fs with
    | nil => simpa using hf
    | cons g gs =>
      have hgs := ih fun x hx => h x (List.mem_cons_of_mem _ hx)
      simp only [List.intercalate_cons_cons, List.mem_append, List.mem_singleton, not_or]
      exact ⟨⟨hf, hc⟩, hgs⟩

/-- The lines of a text, each of which has to end with a line break. -/
def lines? (text : String) : Option (List String) :=
  let parts := text.toList.splitOn '\n'
  if parts.getLast? = some [] then some (parts.dropLast.map String.ofList) else none

theorem splitOn_unlines {ls : List String} (h : ∀ l ∈ ls, '\n' ∉ l.toList) :
    (unlines ls).toList.splitOn '\n' = ls.map String.toList ++ [[]] := by
  induction ls with
  | nil => rfl
  | cons l ls ih =>
    have hl := h l List.mem_cons_self
    have hls := ih fun l' h' => h l' (List.mem_cons_of_mem _ h')
    have hcons : (unlines (l :: ls)).toList = l.toList ++ '\n' :: (unlines ls).toList := by
      simp [unlines]
    rw [hcons, List.splitOn_append_cons_self_of_not_mem hl, hls]
    rfl

theorem lines?_unlines {ls : List String} (h : ∀ l ∈ ls, '\n' ∉ l.toList) :
    lines? (unlines ls) = some ls := by
  simp [lines?, splitOn_unlines h, Function.comp_def]

end Text

namespace Hex

variable {c : Char}

/-- The byte that two digits stand for. -/
def byte? : List Char → Option UInt8
  | [high, low] => do
    let h ← Digits.valueOf? 16 high
    let l ← Digits.valueOf? 16 low
    some (UInt8.ofNat (16 * h + l))
  | _ => none

theorem byte?_byte (b : UInt8) : byte? (byte b) = some b := by
  have hb := b.toNat_lt
  have hhigh : Digits.valueOf? 16 (Digits.char (b.toNat / 16)) = some (b.toNat / 16) :=
    Digits.valueOf?_char (Nat.le_refl 16) (by omega)
  have hlow : Digits.valueOf? 16 (Digits.char (b.toNat % 16)) = some (b.toNat % 16) :=
    Digits.valueOf?_char (Nat.le_refl 16) (by omega)
  have hsum : 16 * (b.toNat / 16) + b.toNat % 16 = b.toNat := Nat.div_add_mod b.toNat 16
  simp only [byte, byte?, hhigh, hlow, Option.bind_eq_bind, Option.bind_some, hsum,
    UInt8.ofNat_toNat]

theorem not_mem_byte (hc : Digits.valueOf? 16 c = none) (b : UInt8) : c ∉ byte b := by
  have hb := b.toNat_lt
  have hne : ∀ d < 16, c ≠ Digits.char d := by
    rintro d hd rfl
    rw [Digits.valueOf?_char (Nat.le_refl 16) hd] at hc
    cases hc
  have hhigh := hne (b.toNat / 16) (by omega)
  have hlow := hne (b.toNat % 16) (by omega)
  simp [byte, hhigh, hlow]

theorem not_mem_padded (hc : Digits.valueOf? 16 c = none) (hx : c ≠ 'x') (width n : Nat) :
    c ∉ padded width n := by
  have hzero : c ≠ '0' := by
    rintro rfl
    cases hc
  have hdigits : ∀ zeros, c ∉ List.replicate zeros '0' ++ Digits.ofNat 16 n := fun zeros =>
    Digits.not_mem_of_value? (Digits.value?_padded (by decide) (by decide) zeros n) hc
  simp only [padded, List.mem_cons, not_or]
  exact ⟨hzero, hx, hdigits _⟩

theorem wordOfChars?_padded (width : Nat) (w : Word) :
    Numeral.wordOfChars? (padded width w.toNat) = some w :=
  Numeral.wordOfChars?_hex (.refl _) (Digits.value?_padded (by decide) (by decide) _ w.toNat)

end Hex

namespace HexDump

variable {c : Char}

/-! ### Rows as text -/

/-- Reads a row: a label, a colon, and bytes with spaces before them. -/
def Row.ofText? (text : String) : Option Row :=
  match text.toList.splitOn ':' with
  | [label, ' ' :: bytes] => do
    let address ← Numeral.wordOfChars? label
    let bytes ← (bytes.splitOn ' ').mapM Hex.byte?
    some ⟨address, bytes⟩
  | _ => none

/-- Reads the rows of a dump. -/
def ofText? (text : String) : Option (List Row) :=
  (Text.lines? text).bind fun ls => ls.mapM Row.ofText?

theorem Row.toList_text (r : Row) : r.text.toList =
    Hex.padded 12 r.address.toNat ++ ':' :: ' ' :: [' '].intercalate (r.bytes.map Hex.byte) := by
  simp [text, Function.comp_def]

theorem not_mem_bytes (hc : Digits.valueOf? 16 c = none) (hspace : c ≠ ' ') (bytes : List UInt8) :
    c ∉ [' '].intercalate (bytes.map Hex.byte) := by
  refine Text.not_mem_intercalate hspace fun f hf => ?_
  obtain ⟨b, -, rfl⟩ := List.mem_map.mp hf
  exact Hex.not_mem_byte hc b

theorem Row.newline_not_mem_text (r : Row) : '\n' ∉ r.text.toList := by
  have hlabel : '\n' ∉ Hex.padded 12 r.address.toNat := Hex.not_mem_padded rfl (by decide) _ _
  have hbytes := not_mem_bytes (c := '\n') rfl (by decide) r.bytes
  simp [toList_text, hlabel, hbytes]

theorem Row.ofText?_text {r : Row} (h : r.bytes ≠ []) : Row.ofText? r.text = some r := by
  have hlabel : ':' ∉ Hex.padded 12 r.address.toNat := Hex.not_mem_padded rfl (by decide) _ _
  have hbytes : ':' ∉ ' ' :: [' '].intercalate (r.bytes.map Hex.byte) := by
    simpa using not_mem_bytes rfl (by decide) r.bytes
  have hsplit : ([' '].intercalate (r.bytes.map Hex.byte)).splitOn ' ' = r.bytes.map Hex.byte := by
    refine List.splitOn_intercalate ' ' (fun f hf => ?_) (by simpa using h)
    obtain ⟨b, -, rfl⟩ := List.mem_map.mp hf
    exact Hex.not_mem_byte rfl b
  have hread : (r.bytes.map Hex.byte).mapM Hex.byte? = some r.bytes :=
    Text.mapM_map_of_inverse fun b _ => Hex.byte?_byte b
  rw [ofText?, toList_text, List.splitOn_append_cons_self_of_not_mem hlabel,
    List.splitOn_eq_singleton hbytes]
  simp only [Hex.wordOfChars?_padded, hsplit, hread, Option.bind_eq_bind, Option.bind_some]

/-- A printed dump is read back as the rows that were printed. -/
theorem ofText?_unlines {rs : List Row} (h : ∀ r ∈ rs, r.bytes ≠ []) :
    ofText? (Text.unlines (rs.map Row.text)) = some rs := by
  have hlines : Text.lines? (Text.unlines (rs.map Row.text)) = some (rs.map Row.text) := by
    refine Text.lines?_unlines fun l hl => ?_
    obtain ⟨r, -, rfl⟩ := List.mem_map.mp hl
    exact r.newline_not_mem_text
  rw [ofText?, hlines, Option.bind_some]
  exact Text.mapM_map_of_inverse fun r hr => Row.ofText?_text (h r hr)

/-! ### Rows as parts of what is dumped -/

variable {address : Word} {bytes : List UInt8} {row : Row} {i : Nat}

theorem getElem?_rows (address : Word) (bytes : List UInt8) (i : Nat) :
    (rows address bytes)[i]? =
      if rowSize * i < bytes.length then
        some ⟨address + UInt64.ofNat (rowSize * i), (bytes.drop (rowSize * i)).take rowSize⟩
      else none := by
  fun_induction rows address bytes generalizing i with
  | case1 => simp_all
  | case2 address bytes hne ih =>
    cases i with
    | zero =>
      have hpos : 0 < bytes.length := List.length_pos_iff.mpr (by simpa using hne)
      simp [hpos]
    | succ i =>
      have hroom : rowSize * i < bytes.length - rowSize ↔ rowSize * (i + 1) < bytes.length := by
        rw [Nat.mul_succ]
        omega
      -- labels are summed up row by row, and it does not matter where a sum wraps
      rw [List.getElem?_cons_succ, ih i, List.length_drop, List.drop_drop, UInt64.add_assoc,
        ← UInt64.ofNat_add, Nat.add_comm rowSize, ← Nat.mul_succ]
      simp only [hroom]

theorem lt_length_rows_iff (address : Word) (bytes : List UInt8) (i : Nat) :
    i < (rows address bytes).length ↔ rowSize * i < bytes.length := by
  have h := getElem?_rows address bytes i
  by_cases hi : rowSize * i < bytes.length
  · rw [if_pos hi] at h
    exact iff_of_true (List.getElem?_eq_some_iff.mp h).1 hi
  · rw [if_neg hi] at h
    exact iff_of_false (Nat.not_lt.mpr (List.getElem?_eq_none_iff.mp h)) hi

theorem length_rows {n : Nat} (h : bytes.length = rowSize * n) :
    (rows address bytes).length = n := by
  have hafter := lt_length_rows_iff address bytes n
  have hlast := lt_length_rows_iff address bytes (rows address bytes).length
  rw [h] at hafter hlast
  simp only [rowSize] at hafter hlast
  omega

/-- What a row shows, and where it says that this is. -/
theorem eq_of_getElem?_rows (h : (rows address bytes)[i]? = some row) :
    rowSize * i < bytes.length ∧ row.address = address + UInt64.ofNat (rowSize * i) ∧
      row.bytes = (bytes.drop (rowSize * i)).take rowSize := by
  rw [getElem?_rows] at h
  split at h
  · rename_i hi
    cases h
    exact ⟨hi, rfl, rfl⟩
  · cases h

/-- Only the last row can be short. -/
theorem length_bytes_of_mem_rows {n : Nat} (h : bytes.length = rowSize * n)
    (hrow : row ∈ rows address bytes) : row.bytes.length = rowSize := by
  obtain ⟨i, hi⟩ := List.mem_iff_getElem?.mp hrow
  obtain ⟨hlt, -, hbytes⟩ := eq_of_getElem?_rows hi
  rw [hbytes, List.length_take, List.length_drop]
  simp only [rowSize] at *
  omega

end HexDump

end Paging
