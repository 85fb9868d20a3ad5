import Paging.Engine
import Paging.Proofs.Decoding
import Paging.Proofs.Layout
import Paging.Proofs.Widths

/-!
# Layouts of accepted inputs

Which widths and which values of the translation control register describe a layout, and which
layout it is (`AcceptsWidths`, `DecodesTcr`). The register leaves some address bits above the page
offset; they fill tables from the last level up, and the root takes the rest of at least one bit
(`splitWidths_eq`). The arithmetic on the way never leaves the range of a byte
(`ofTcrBytes?_eq`). Whatever is accepted is usable, so that every engine can be built
(`constructors_accept_usable`).
-/

namespace Paging

/-! ### Arithmetic in bytes -/

namespace Byte

/-- The sum, unless it needs more than eight bits. -/
def add? (a b : UInt8) : Option UInt8 := if a.toNat + b.toNat < 2 ^ 8 then some (a + b) else none

/-- The difference, unless it is negative. -/
def sub? (a b : UInt8) : Option UInt8 := if b ≤ a then some (a - b) else none

/-- The difference, or zero where it is negative. -/
def subOrZero (a b : UInt8) : UInt8 := (sub? a b).getD 0

/-- The product, unless it needs more than eight bits. -/
def mul? (a b : UInt8) : Option UInt8 := if a.toNat * b.toNat < 2 ^ 8 then some (a * b) else none

/-- The quotient rounded up, unless there is none. -/
def divUp? (a b : UInt8) : Option UInt8 :=
  if b = 0 then none else if a % b = 0 then some (a / b) else add? (a / b) 1

variable {a b : Nat}

theorem toNat_ofNat (h : a < 2 ^ 8) : (UInt8.ofNat a).toNat = a := by
  rw [UInt8.toNat_ofNat', Nat.mod_eq_of_lt h]

theorem ofNat_le_iff (ha : a < 2 ^ 8) (hb : b < 2 ^ 8) :
    UInt8.ofNat a ≤ UInt8.ofNat b ↔ a ≤ b := by
  rw [UInt8.le_iff_toNat_le, toNat_ofNat ha, toNat_ofNat hb]

theorem add?_ofNat (h : a + b < 2 ^ 8) : add? (.ofNat a) (.ofNat b) = some (.ofNat (a + b)) := by
  rw [add?, toNat_ofNat (by omega), toNat_ofNat (by omega), if_pos h, UInt8.ofNat_add]

theorem sub?_ofNat (ha : a < 2 ^ 8) (h : b ≤ a) :
    sub? (.ofNat a) (.ofNat b) = some (.ofNat (a - b)) := by
  have hb : b < 2 ^ 8 := Nat.lt_of_le_of_lt h ha
  have hle : UInt8.ofNat b ≤ UInt8.ofNat a := (ofNat_le_iff hb ha).mpr h
  rw [sub?, if_pos hle]
  congr 1
  apply UInt8.toNat_inj.mp
  rw [UInt8.toNat_sub_of_le _ _ hle, toNat_ofNat ha, toNat_ofNat hb, toNat_ofNat (by omega)]

theorem mul?_ofNat (ha : a < 2 ^ 8) (hb : b < 2 ^ 8) (h : a * b < 2 ^ 8) :
    mul? (.ofNat a) (.ofNat b) = some (.ofNat (a * b)) := by
  rw [mul?, toNat_ofNat ha, toNat_ofNat hb, if_pos h, UInt8.ofNat_mul]

theorem ofNat_div (ha : a < 2 ^ 8) (hb : b < 2 ^ 8) :
    UInt8.ofNat a / UInt8.ofNat b = .ofNat (a / b) := by
  apply UInt8.toNat_inj.mp
  have hle : a / b ≤ a := Nat.div_le_self a b
  rw [UInt8.toNat_div, toNat_ofNat ha, toNat_ofNat hb, toNat_ofNat (by omega)]

theorem ofNat_mod_eq_zero_iff (ha : a < 2 ^ 8) (hb : b < 2 ^ 8) :
    UInt8.ofNat a % UInt8.ofNat b = 0 ↔ a % b = 0 := by
  rw [← UInt8.toNat_inj, UInt8.toNat_mod, toNat_ofNat ha, toNat_ofNat hb]
  rfl

theorem divUp?_ofNat (ha : a < 2 ^ 8) (hb : b < 2 ^ 8) (hpos : 1 < b) :
    divUp? (.ofNat a) (.ofNat b) = some (.ofNat ((a + b - 1) / b)) := by
  have hne : UInt8.ofNat b ≠ 0 := by
    intro h
    have hzero := congrArg UInt8.toNat h
    rw [toNat_ofNat hb] at hzero
    exact absurd hzero (by simp; omega)
  have hdiv := Nat.div_add_mod a b
  have hmod := Nat.mod_lt a (Nat.zero_lt_of_lt hpos)
  rw [divUp?, if_neg hne, ofNat_div ha hb]
  by_cases hexact : a % b = 0
  · have hceil : (a + b - 1) / b = a / b := by
      apply Nat.div_eq_of_lt_le
      · rw [Nat.mul_comm]
        omega
      · rw [Nat.succ_mul, Nat.mul_comm]
        omega
    rw [if_pos ((ofNat_mod_eq_zero_iff ha hb).mpr hexact), hceil]
  · have hceil : (a + b - 1) / b = a / b + 1 := by
      apply Nat.div_eq_of_lt_le
      · rw [Nat.succ_mul, Nat.mul_comm]
        omega
      · rw [Nat.succ_mul, Nat.succ_mul, Nat.mul_comm]
        omega
    have hhalf : a / b ≤ a / 2 := Nat.div_le_div_left hpos (by decide)
    have hroom : a / b + 1 < 2 ^ 8 := by omega
    rw [if_neg (mt (ofNat_mod_eq_zero_iff ha hb).mp hexact), hceil]
    exact add?_ofNat hroom

end Byte

namespace Geometry

/-! ### Fields of the register -/

/-- What field TG0 holds. -/
def tg0 (tcr : Word) : Nat := tcr.toNat / 2 ^ 14 % 2 ^ 2

/-- What field T0SZ holds. -/
def t0sz (tcr : Word) : Nat := tcr.toNat % 2 ^ 6

theorem toNat_tg0 (tcr : Word) : ((⟨14, 2⟩ : BitField).get tcr).toNat = tg0 tcr :=
  BitField.toNat_get ⟨by decide, by decide⟩ tcr

theorem inputBits_eq (tcr : Word) : inputBits tcr = 64 - t0sz tcr := by
  rw [inputBits, BitField.toNat_get_low (by decide), t0sz]

/-- The granules by what selects them. -/
def granules : List Granule := [⟨12, 9⟩, ⟨16, 13⟩, ⟨14, 11⟩]

theorem granule?_eq (tcr : Word) : granule? tcr = granules[tg0 tcr]? := by
  have hlt : tg0 tcr < 4 := Nat.mod_lt _ (by decide)
  rw [granule?, toNat_tg0]
  obtain h | h | h | h : tg0 tcr = 0 ∨ tg0 tcr = 1 ∨ tg0 tcr = 2 ∨ tg0 tcr = 3 := by omega
  all_goals rw [h]; rfl

theorem granule?_eq_none_iff {tcr : Word} : granule? tcr = none ↔ tg0 tcr = 3 := by
  have hlt : tg0 tcr < 4 := Nat.mod_lt _ (by decide)
  rw [granule?_eq, List.getElem?_eq_none_iff]
  show 3 ≤ tg0 tcr ↔ tg0 tcr = 3
  omega

theorem mem_granules {tcr : Word} {granule : Granule} (h : granule? tcr = some granule) :
    granule ∈ granules := by
  rw [granule?_eq] at h
  exact List.mem_of_getElem? h

/-! ### Splitting the bits -/

section Split

variable {remaining stride : Nat}

/-- Every level below the root is full, and the root takes the rest of at least one bit. -/
theorem splitWidths_eq (hr : 0 < remaining) (hs : 0 < stride) :
    ∃ top full, splitWidths remaining stride = top :: List.replicate full stride ∧
      1 ≤ top ∧ top ≤ stride ∧ top + full * stride = remaining := by
  have hceil : (remaining + stride - 1) / stride = (remaining - 1) / stride + 1 := by
    rw [← Nat.add_div_right _ hs]
    congr 1
    omega
  have hdiv := Nat.div_add_mod (remaining - 1) stride
  have hmod := Nat.mod_lt (remaining - 1) hs
  rw [Nat.mul_comm] at hdiv
  refine ⟨remaining - (remaining - 1) / stride * stride, (remaining - 1) / stride, ?_, ?_⟩
  · rw [splitWidths, hceil, Nat.add_sub_cancel]
  · omega

/-- The bits that a granule leaves fill five levels at most. -/
theorem levelCount_le {granule : Granule} {bits : Nat} (h : granule ∈ granules) (hb : bits ≤ 52) :
    (bits - granule.offsetBits + granule.stride - 1) / granule.stride ≤ 5 := by
  obtain rfl | rfl | rfl : granule = ⟨12, 9⟩ ∨ granule = ⟨16, 13⟩ ∨ granule = ⟨14, 11⟩ := by
    simpa [granules] using h
  all_goals simp only; omega

end Split

/-- As `splitWidths`, in bytes and with room for five widths; nothing where that does not do. -/
def splitBytes? (remaining stride : UInt8) : Option (List UInt8) := do
  let count ← Byte.divUp? remaining stride
  let full ← Byte.sub? count 1
  let taken ← Byte.mul? full stride
  let top ← Byte.sub? remaining taken
  if count.toNat ≤ 5 then some ((top :: List.replicate 4 stride).take count.toNat) else none

theorem splitBytes?_ofNat {remaining stride : Nat} (hr : 0 < remaining) (hs : 1 < stride)
    (hr' : remaining < 2 ^ 8) (hs' : stride < 2 ^ 8)
    (hcount : (remaining + stride - 1) / stride ≤ 5) :
    splitBytes? (.ofNat remaining) (.ofNat stride) =
      some ((splitWidths remaining stride).map UInt8.ofNat) := by
  obtain ⟨full, hfull⟩ : ∃ full, (remaining + stride - 1) / stride = full + 1 := by
    apply Nat.exists_eq_add_of_le'
    exact (Nat.one_le_div_iff (by omega)).mpr (by omega)
  have htaken : full * stride < remaining := by
    have hle := Nat.div_mul_le_self (remaining + stride - 1) stride
    rw [hfull, Nat.succ_mul] at hle
    omega
  rw [hfull] at hcount
  have hcount8 : full + 1 < 2 ^ 8 := Nat.lt_of_le_of_lt hcount (by decide)
  have hsub : Byte.sub? (.ofNat (full + 1)) 1 = some (.ofNat full) :=
    Byte.sub?_ofNat hcount8 (Nat.le_add_left 1 full)
  have hmul : Byte.mul? (.ofNat full) (.ofNat stride) = some (.ofNat (full * stride)) :=
    Byte.mul?_ofNat (by omega) hs' (by omega)
  have htop : Byte.sub? (.ofNat remaining) (.ofNat (full * stride)) =
      some (.ofNat (remaining - full * stride)) := Byte.sub?_ofNat hr' (Nat.le_of_lt htaken)
  have hmin : min full 4 = full := by omega
  simp only [splitBytes?, Byte.divUp?_ofNat hr' hs' hs, hfull, hsub, hmul, htop,
    Option.bind_eq_bind, Option.bind_some, Byte.toNat_ofNat hcount8, if_pos hcount,
    List.take_succ_cons, List.take_replicate, splitWidths, Nat.add_sub_cancel, List.map_cons,
    List.map_replicate, hmin]

/-- As `ofTcr`, in bytes; nothing where a step leaves their range. -/
def ofTcrBytes? (tcr : Word) : Option (Except Error Geometry) :=
  match granule? tcr with
  | none => some (.error (.unrecognizedConfiguration tcr))
  | some granule =>
    let offset := UInt8.ofNat granule.offsetBits
    let bits := Byte.subOrZero 64 ((⟨0, 6⟩ : BitField).get tcr).toUInt8
    if 52 < bits ∨ bits ≤ offset then some (.error (.unrecognizedConfiguration tcr))
    else do
      let remaining ← Byte.sub? bits offset
      let widths ← splitBytes? remaining (.ofNat granule.stride)
      some ((ofWidths offset.toNat (widths.map UInt8.toNat)).mapError fun _ =>
        .unrecognizedConfiguration tcr)

theorem ofNat_inputBits (tcr : Word) :
    Byte.subOrZero 64 ((⟨0, 6⟩ : BitField).get tcr).toUInt8 = .ofNat (inputBits tcr) := by
  have hlt : t0sz tcr < 2 ^ 6 := Nat.mod_lt _ (by decide)
  have hfield : ((⟨0, 6⟩ : BitField).get tcr).toUInt8 = .ofNat (t0sz tcr) := by
    apply UInt8.toNat_inj.mp
    rw [UInt64.toNat_toUInt8, BitField.toNat_get_low (by decide), UInt8.toNat_ofNat', t0sz]
  have hsub : Byte.sub? 64 (.ofNat (t0sz tcr)) = some (.ofNat (64 - t0sz tcr)) :=
    Byte.sub?_ofNat (by decide) (Nat.le_of_lt hlt)
  rw [hfield, Byte.subOrZero, hsub, inputBits_eq]
  rfl

theorem map_toNat_ofNat {ns : List Nat} (h : ∀ n ∈ ns, n < 2 ^ 8) :
    (ns.map UInt8.ofNat).map UInt8.toNat = ns := by
  rw [List.map_map]
  conv => rhs; rw [← List.map_id ns]
  exact List.map_congr_left fun n hn => Byte.toNat_ofNat (h n hn)

theorem lt_of_mem_splitWidths {remaining stride w : Nat} (hr : 0 < remaining) (hs : 0 < stride)
    (hw : w ∈ splitWidths remaining stride) : 1 ≤ w ∧ w ≤ stride := by
  obtain ⟨top, full, hsplit, hpos, htop, _⟩ := splitWidths_eq hr hs
  rw [hsplit] at hw
  rcases List.mem_cons.mp hw with rfl | hw
  · exact ⟨hpos, htop⟩
  · rw [List.eq_of_mem_replicate hw]
    exact ⟨hs, Nat.le_refl stride⟩

/-- What the arithmetic has to know of a granule. -/
theorem bounds_of_mem_granules {granule : Granule} (h : granule ∈ granules) :
    (4 ≤ granule.offsetBits ∧ granule.offsetBits ≤ 21) ∧ 1 < granule.stride ∧
      granule.stride ≤ 16 := by
  revert granule
  decide

/-- No step leaves the range of a byte. -/
theorem ofTcrBytes?_eq (tcr : Word) : ofTcrBytes? tcr = some (ofTcr tcr) := by
  unfold ofTcrBytes? ofTcr
  cases hg : granule? tcr with
  | none => rfl
  | some granule =>
    obtain ⟨hoffset, hstride, hstride'⟩ := bounds_of_mem_granules (mem_granules hg)
    have hbits : inputBits tcr ≤ 64 := Nat.sub_le 64 _
    have hhigh : (52 : UInt8) < .ofNat (inputBits tcr) ↔ 52 < inputBits tcr := by
      rw [UInt8.lt_iff_toNat_lt, Byte.toNat_ofNat (by omega)]
      rfl
    have hlow : UInt8.ofNat (inputBits tcr) ≤ .ofNat granule.offsetBits ↔
        inputBits tcr ≤ granule.offsetBits := Byte.ofNat_le_iff (by omega) (by omega)
    simp only [ofNat_inputBits, hhigh, hlow]
    split
    · rfl
    · rename_i hin
      have hpos : 0 < inputBits tcr - granule.offsetBits := by omega
      have hsub : Byte.sub? (.ofNat (inputBits tcr)) (.ofNat granule.offsetBits) =
          some (.ofNat (inputBits tcr - granule.offsetBits)) :=
        Byte.sub?_ofNat (by omega) (by omega)
      have hsplit := splitBytes?_ofNat hpos hstride (by omega) (by omega)
        (levelCount_le (mem_granules hg) (by omega))
      have hback : ((splitWidths (inputBits tcr - granule.offsetBits) granule.stride).map
          UInt8.ofNat).map UInt8.toNat =
            splitWidths (inputBits tcr - granule.offsetBits) granule.stride := by
        apply map_toNat_ofNat
        intro w hw
        have := lt_of_mem_splitWidths hpos (by omega) hw
        omega
      simp only [hsub, hsplit, hback, Byte.toNat_ofNat (show granule.offsetBits < 2 ^ 8 by omega),
        Option.bind_eq_bind, Option.bind_some]
      cases ofWidths granule.offsetBits
        (splitWidths (inputBits tcr - granule.offsetBits) granule.stride) <;> rfl

/-! ### Accepted values -/

/-- The layout takes so many bits in all, in full tables of a granule below the root. -/
structure Fills (g : Geometry) (granule : Granule) (bits : Nat) : Prop where
  offset : g.offsetBits = granule.offsetBits
  virtualBits : g.virtualBits = bits
  root : ∃ w, g.width? .pgd = some w ∧ 1 ≤ w ∧ w ≤ granule.stride
  below : ∀ l ∈ g.levels, l ≠ .pgd → g.width? l = some granule.stride

theorem foldr_add_replicate (count n : Nat) :
    (List.replicate count n).foldr (· + ·) 0 = count * n := by
  induction count with
  | zero => exact (Nat.zero_mul n).symm
  | succ count ih => rw [List.replicate_succ, List.foldr_cons, ih, Nat.succ_mul, Nat.add_comm]

section Granule

variable {granule : Granule} {bits : Nat} (hg : granule ∈ granules)
  (hlow : granule.offsetBits < bits)
include hg hlow

theorem describes_split_iff (hhigh : bits ≤ 52) :
    Describes granule.offsetBits (splitWidths (bits - granule.offsetBits) granule.stride) ↔
      granule.offsetBits + granule.stride < bits := by
  obtain ⟨hoffset, hstride, hstride'⟩ := bounds_of_mem_granules hg
  have hpos : 0 < bits - granule.offsetBits := by omega
  have hrange : ∀ w ∈ splitWidths (bits - granule.offsetBits) granule.stride, 1 ≤ w ∧ w ≤ 16 := by
    intro w hw
    obtain ⟨hpos, hle⟩ := lt_of_mem_splitWidths hpos (Nat.zero_lt_of_lt hstride) hw
    exact ⟨hpos, Nat.le_trans hle hstride'⟩
  have hlength : (splitWidths (bits - granule.offsetBits) granule.stride).length ≤ 5 := by
    have hcount := levelCount_le hg hhigh
    rw [splitWidths, List.length_cons, List.length_replicate]
    omega
  obtain ⟨top, full, hsplit, htop, htop', hsum⟩ := splitWidths_eq hpos (Nat.zero_lt_of_lt hstride)
  rw [hsplit] at hrange hlength ⊢
  have htotal : (top :: List.replicate full granule.stride).foldr (· + ·) 0 =
      bits - granule.offsetBits := by rw [List.foldr_cons, foldr_add_replicate, hsum]
  constructor
  · intro h
    have hdepth := h.depth.1
    rw [List.length_cons, List.length_replicate] at hdepth
    have hfull : granule.stride ≤ full * granule.stride := Nat.le_mul_of_pos_left _ (by omega)
    omega
  · intro h
    have hfull : 0 < full := by
      apply Nat.pos_of_ne_zero
      rintro rfl
      omega
    refine ⟨⟨?_, hlength⟩, hoffset, hrange, ?_⟩
    · rw [List.length_cons, List.length_replicate]
      omega
    · rw [htotal]
      omega

theorem fills_of_ofWidths {g : Geometry} (h : ofWidths granule.offsetBits
    (splitWidths (bits - granule.offsetBits) granule.stride) = .ok g) : g.Fills granule bits := by
  obtain ⟨-, hstride, -⟩ := bounds_of_mem_granules hg
  have hcarries := carries_of_ofWidths h
  obtain ⟨top, full, hsplit, htop, htop', hsum⟩ :=
    splitWidths_eq (Nat.sub_pos_of_lt hlow) (Nat.zero_lt_of_lt hstride)
  rw [hsplit] at hcarries
  obtain ⟨rest, hlevels⟩ : ∃ rest, g.levels = .pgd :: rest :=
    List.head?_eq_some_iff.mp hcarries.first
  have hwidths := hcarries.widths
  rw [hlevels, List.map_cons, List.map_cons, List.map_replicate] at hwidths
  obtain ⟨hroot, hrest⟩ := List.cons.inj hwidths
  refine ⟨hcarries.offset, ?_, ⟨top, hroot, htop, htop'⟩, ?_⟩
  · rw [hcarries.virtualBits, List.foldr_cons, foldr_add_replicate, hsum]
    omega
  · intro l hl hne
    rw [hlevels] at hl
    have hmem : g.width? l ∈ rest.map g.width? :=
      List.mem_map_of_mem ((List.mem_cons.mp hl).resolve_left hne)
    rw [hrest] at hmem
    exact List.eq_of_mem_replicate hmem

end Granule

/-- Which values of the register are accepted, and what layout they give. -/
structure DecodesTcr (tcr : Word) : Prop where
  /-- Field TG0 selects the granule, and its value 3 none. -/
  granule : granule? tcr = granules[tg0 tcr]?
  /-- Field T0SZ must leave a root above the last level, and no more than 52 bits. -/
  accepted_iff : (∃ g, ofTcr tcr = .ok g) ↔ tg0 tcr ≠ 3 ∧ 12 ≤ t0sz tcr ∧
    ∀ granule, granule? tcr = some granule →
      granule.offsetBits + granule.stride < 64 - t0sz tcr
  fills : ∀ g, ofTcr tcr = .ok g →
    ∃ granule, granule? tcr = some granule ∧ g.Fills granule (64 - t0sz tcr)
  refused : ∀ err, ofTcr tcr = .error err → err = .unrecognizedConfiguration tcr
  /-- No step of the arithmetic leaves the range of a byte. -/
  bytes : ofTcrBytes? tcr = some (ofTcr tcr)

/-- The register is accepted if the widths are that its fields make. -/
theorem ofTcr_eq_ok_iff {tcr : Word} {g : Geometry} : ofTcr tcr = .ok g ↔
    ∃ granule, granule? tcr = some granule ∧
      (inputBits tcr ≤ 52 ∧ granule.offsetBits < inputBits tcr) ∧
        ofWidths granule.offsetBits
          (splitWidths (inputBits tcr - granule.offsetBits) granule.stride) = .ok g := by
  unfold ofTcr
  cases hg : granule? tcr with
  | none => simp
  | some granule =>
    simp only [Option.some.injEq, exists_eq_left']
    split
    · rename_i hout
      constructor
      · exact nofun
      · intro h
        omega
    · rename_i hin
      have hbounds : inputBits tcr ≤ 52 ∧ granule.offsetBits < inputBits tcr := by omega
      split
      · rename_i hw
        rw [hw]
        simp [hbounds]
      · rename_i hw
        rw [hw]
        simp

theorem decodesTcr (tcr : Word) : DecodesTcr tcr where
  granule := granule?_eq tcr
  accepted_iff := by
    constructor
    · rintro ⟨g, h⟩
      obtain ⟨granule, hg, ⟨hhigh, hlow⟩, hw⟩ := ofTcr_eq_ok_iff.mp h
      have hroom := (describes_split_iff (mem_granules hg) hlow hhigh).mp
        (ofWidths_isOk_iff.mp ⟨g, hw⟩)
      rw [inputBits_eq] at hroom hhigh
      refine ⟨?_, by omega, ?_⟩
      · intro h3
        rw [granule?_eq_none_iff.mpr h3] at hg
        cases hg
      · rintro _ hg'
        cases hg.symm.trans hg'
        exact hroom
    · rintro ⟨h3, hsize, hroom⟩
      obtain ⟨granule, hg⟩ := Option.ne_none_iff_exists'.mp (mt granule?_eq_none_iff.mp h3)
      have hroom := hroom granule hg
      rw [← inputBits_eq] at hroom
      have hhigh : inputBits tcr ≤ 52 := by
        rw [inputBits_eq]
        omega
      have hlow : granule.offsetBits < inputBits tcr := by omega
      obtain ⟨g, hw⟩ := ofWidths_isOk_iff.mpr
        ((describes_split_iff (mem_granules hg) hlow hhigh).mpr hroom)
      exact ⟨g, ofTcr_eq_ok_iff.mpr ⟨granule, hg, ⟨hhigh, hlow⟩, hw⟩⟩
  fills := by
    intro g h
    obtain ⟨granule, hg, ⟨-, hlow⟩, hw⟩ := ofTcr_eq_ok_iff.mp h
    rw [← inputBits_eq]
    exact ⟨granule, hg, fills_of_ofWidths (mem_granules hg) hlow hw⟩
  refused := by
    intro err h
    unfold ofTcr at h
    cases hg : granule? tcr with
    | none =>
      simp only [hg] at h
      cases h
      rfl
    | some granule =>
      simp only [hg] at h
      split at h
      · cases h
        rfl
      · split at h <;> cases h
        rfl
  bytes := ofTcrBytes?_eq tcr

/-- Which widths are accepted, and what layout they give. -/
structure AcceptsWidths (offsetBits : Nat) (widths : List Nat) : Prop where
  accepted_iff : (∃ g, ofWidths offsetBits widths = .ok g) ↔ Describes offsetBits widths
  carries : ∀ g, ofWidths offsetBits widths = .ok g → g.Carries offsetBits widths
  refused : ∀ err, ofWidths offsetBits widths = .error err → err = .invalidGeometry

/-- Exactly the usable layouts are accepted, whatever they are built from, and engines accept all
that are. -/
structure Accepting : Prop where
  widths : ∀ offsetBits widths, AcceptsWidths offsetBits widths
  tcr : ∀ tcr, DecodesTcr tcr
  usable : ∀ g : Geometry, g.Constructed → g.isUsable = true
  engine : ∀ arch g, g.Constructed → Engine.ofGeometry arch g = .ok ⟨arch, g⟩

theorem constructors_accept_usable : Accepting where
  widths _ _ := ⟨ofWidths_isOk_iff, fun _ => carries_of_ofWidths, fun _ => error_of_ofWidths⟩
  tcr := decodesTcr
  usable _ h := h.isUsable
  engine arch g h := by rw [Engine.ofGeometry, h.isUsable, if_pos rfl]

end Geometry

end Paging
