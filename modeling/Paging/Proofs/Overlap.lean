import Paging.Proofs.Storing

/-!
# Words that overlap

Which words can be read and written depends on the shape of a memory alone, its backing and its
size. Of a given shape, a word that can be read is written in place (`writeWord_of_readable`), and
two words whose bytes do not overlap can be read and written in either order
(`wordAt_laid`, `laid_comm`).
-/

namespace Paging

/-! ### Bytes laid apart -/

namespace Bytes

theorem overwrite_comm (bytes : Array UInt8) {i j : Nat} {bs cs : List UInt8}
    (h : i + bs.length ≤ j ∨ j + cs.length ≤ i) :
    overwrite (overwrite bytes i bs) j cs = overwrite (overwrite bytes j cs) i bs := by
  apply Array.ext_getElem?
  intro p
  have hi := size_overwrite bytes i bs
  have hj := size_overwrite bytes j cs
  by_cases hp : p < bytes.size
  · rw [getElem?_overwrite _ j cs p (by omega), getElem?_overwrite _ i bs p hp,
      getElem?_overwrite _ i bs p (by omega), getElem?_overwrite _ j cs p hp]
    by_cases hin : j ≤ p ∧ p < j + cs.length
    · rw [if_pos hin, if_neg (by omega), if_pos hin]
    · rw [if_neg hin, if_neg hin]
  · have hij := size_overwrite (overwrite bytes i bs) j cs
    have hji := size_overwrite (overwrite bytes j cs) i bs
    rw [Array.getElem?_eq_none (by omega), Array.getElem?_eq_none (by omega)]

theorem slice_overwrite (bytes : Array UInt8) {i j count : Nat} {bs : List UInt8}
    (h : i + bs.length ≤ j ∨ j + count ≤ i) :
    slice (overwrite bytes i bs) j (j + count) = slice bytes j (j + count) := by
  have hsize := size_overwrite bytes i bs
  unfold slice
  congr 1
  apply Array.ext_getElem?
  intro p
  rw [Array.getElem?_extract, Array.getElem?_extract, hsize]
  split
  · rename_i hp
    rw [getElem?_overwrite _ i bs _ (by omega), if_neg (by omega)]
  · rfl

theorem length_slice {bytes : Array UInt8} {i count : Nat} (h : i + count ≤ bytes.size) :
    (slice bytes i (i + count)).length = count := by
  simp only [slice, Array.length_toList, Array.size_extract]
  omega

theorem overwrite_slice {bytes : Array UInt8} {i count : Nat} (h : i + count ≤ bytes.size) :
    overwrite bytes i (slice bytes i (i + count)) = bytes := by
  have hlen := length_slice h
  apply Array.ext_getElem?
  intro p
  by_cases hp : p < bytes.size
  · rw [getElem?_overwrite _ i _ p hp, hlen]
    split
    · next hin =>
      unfold slice
      rw [Array.getElem?_toList, Array.getElem?_extract, if_pos (by omega)]
      congr 1
      omega
    · rfl
  · have hsize := size_overwrite bytes i (slice bytes i (i + count))
    rw [Array.getElem?_eq_none (by omega), Array.getElem?_eq_none (by omega)]

end Bytes

namespace Memory

variable {m m' : Memory} {a b : PhysicalAddress} {v w : Word}

/-! ### Shapes -/

/-- Memories that accept the same accesses. -/
structure SameShape (m m' : Memory) : Prop where
  backing : m.backing = m'.backing
  size : m.size = m'.size

theorem SameShape.refl (m : Memory) : m.SameShape m := ⟨rfl, rfl⟩

theorem SameShape.trans {m'' : Memory} (h : m.SameShape m') (h' : m'.SameShape m'') :
    m.SameShape m'' :=
  ⟨h.backing.trans h'.backing, h.size.trans h'.size⟩

theorem SameShape.inside? (h : m.SameShape m') (a : PhysicalAddress) (count : Nat) :
    m.inside? a count = m'.inside? a count := by
  simp only [Memory.inside?, h.backing, h.size]

theorem SameShape.misaligned (h : m.SameShape m') (a : PhysicalAddress) :
    m.misaligned a = m'.misaligned a := by
  simp only [Memory.misaligned, h.backing]

def Readable (m : Memory) (a : PhysicalAddress) : Prop := ∃ w, m.readWord a = .ok w

/-- What stands in the way of reading a word, which is for the shape to say. -/
def readRefusal? (m : Memory) (a : PhysicalAddress) : Option Refusal :=
  if m.misaligned a then some (refusal a)
  else
    match m.backing with
    | .file mode =>
      match readFailure? mode a 8 with
      | some why => some (readRefusal a 8 why)
      | none =>
        if mode = .zeros ∨ (m.inside? a 8).isSome then none
        else some (readRefusal a 8 .endOfFile)
    | _ => if (m.inside? a 8).isSome then none else some (refusal a)

/-- The word at an address inside, whatever may stand in the way. -/
def wordAt (m : Memory) (a : PhysicalAddress) : Word :=
  if m.backing = .file .zeros then 0
  else
    match m.inside? a 8 with
    | some start => Bytes.toWord (Bytes.slice m.bytes start (start + 8))
    | none => 0

theorem readWord_eq (m : Memory) (a : PhysicalAddress) :
    m.readWord a =
      match m.readRefusal? a with
      | some r => .error r
      | none => .ok (m.wordAt a) := by
  unfold readWord readRefusal?
  split
  · rfl
  · unfold readBytes wordAt
    cases hb : m.backing with
    | file mode =>
      simp only [show ¬ (8 = 0) by decide, if_false]
      cases hf : readFailure? mode a 8 with
      | some why => rfl
      | none =>
        by_cases hz : mode = .zeros
        · simp only [hz, if_true, true_or, Except.map]
          rfl
        · simp only [hz, if_false, false_or, Backing.file.injEq]
          cases m.inside? a 8 <;> rfl
    | emulated cursor => cases m.inside? a 8 <;> rfl
    | window base => cases m.inside? a 8 <;> rfl
    | direct offset => cases m.inside? a 8 <;> rfl

theorem SameShape.readRefusal? (h : m.SameShape m') (a : PhysicalAddress) :
    m.readRefusal? a = m'.readRefusal? a := by
  unfold Memory.readRefusal?
  rw [h.misaligned, h.backing, h.inside?]

theorem readable_iff : m.Readable a ↔ m.readRefusal? a = none := by
  unfold Readable
  rw [readWord_eq]
  cases m.readRefusal? a <;> simp

theorem SameShape.readable (h : m.SameShape m') : m.Readable a ↔ m'.Readable a := by
  rw [readable_iff, readable_iff, h.readRefusal?]

/-! ### Writing in place -/

/-- The memory with a word laid over it, if it keeps what is written. -/
def laid (m : Memory) (a : PhysicalAddress) (w : Word) : Memory :=
  if m.backing = .file .zeros then m else m.preload [(a, w)]

theorem sameShape_laid (m : Memory) (a : PhysicalAddress) (w : Word) :
    m.SameShape (m.laid a w) := by
  unfold laid
  split
  · exact .refl m
  · exact ⟨(backing_preload _ m).symm, (size_preload _ m).symm⟩

def writeRefusal? (m : Memory) (a : PhysicalAddress) : Option Refusal :=
  if m.misaligned a then some (refusal a)
  else
    match m.backing with
    | .file mode => (writeFailure? mode a 8).map (writeRefusal a 8)
    | _ => none

theorem SameShape.writeRefusal? (h : m.SameShape m') (a : PhysicalAddress) :
    m.writeRefusal? a = m'.writeRefusal? a := by
  unfold Memory.writeRefusal?
  rw [h.misaligned, h.backing]

/-- A word that can be read is either refused for its address or written in place. -/
theorem writeWord_of_readable (h : m.Readable a) (w : Word) :
    m.writeWord a w =
      match m.writeRefusal? a with
      | some r => .error r
      | none => .ok (m.laid a w) := by
  have hlen := Bytes.length_ofWord w
  have hne := isEmpty_ofWord w
  obtain ⟨u, hu⟩ := h
  unfold writeWord writeRefusal?
  split
  · rfl
  · unfold writeBytes
    obtain ⟨hz, _⟩ | ⟨hz, start, hstart⟩ := inside_of_readWord hu
    · simp only [hz, hne, Bool.false_eq_true, if_false, if_true, hlen, laid]
      cases writeFailure? .zeros a 8 <;> rfl
    · obtain ⟨hpos, hle⟩ := inside?_eq_some hstart
      rw [laid, if_neg hz, preload_one hstart]
      cases hb : m.backing with
      | file mode =>
        have hmode : mode ≠ .zeros := fun hmode => hz (by rw [hb, hmode])
        have hat : a.toNat = start := by
          rw [hb] at hpos
          exact Option.some.inj hpos
        have hgrow : Bytes.grow m.bytes (start + 8) = m.bytes := grow_of_le hle
        simp only [hne, Bool.false_eq_true, if_false, hlen, hmode, hat, hgrow]
        cases writeFailure? mode a 8 <;> rfl
      | emulated cursor | window base | direct offset => simp only [hlen, hstart]

theorem laid_wordAt (m : Memory) (a : PhysicalAddress) : m.laid a (m.wordAt a) = m := by
  unfold laid
  split
  · rfl
  · next hz =>
    cases hi : m.inside? a 8 with
    | none => simp [preload, hi]
    | some i =>
      obtain ⟨-, hle⟩ := inside?_eq_some hi
      have hword : m.wordAt a = Bytes.toWord (Bytes.slice m.bytes i (i + 8)) := by
        simp only [wordAt, hz, if_false, hi]
      rw [preload_one hi, hword, Bytes.ofWord_toWord (Bytes.length_slice hle),
        Bytes.overwrite_slice hle]

/-! ### Overlap -/

/-- The words at two addresses share a byte. -/
def overlap (m : Memory) (a b : PhysicalAddress) : Bool :=
  match m.inside? a 8, m.inside? b 8 with
  | some i, some j => decide (i < j + 8) && decide (j < i + 8)
  | _, _ => false

theorem overlap_comm (m : Memory) (a b : PhysicalAddress) : m.overlap a b = m.overlap b a := by
  unfold overlap
  cases m.inside? a 8 <;> cases m.inside? b 8 <;> simp [Bool.and_comm]

theorem SameShape.overlap (h : m.SameShape m') (a b : PhysicalAddress) :
    m.overlap a b = m'.overlap a b := by
  simp only [Memory.overlap, h.inside?]

theorem wordAt_laid (h : m.overlap a b = false) : (m.laid b w).wordAt a = m.wordAt a := by
  have hshape := sameShape_laid m b w
  unfold wordAt
  rw [← hshape.backing, ← hshape.inside?]
  by_cases hz : m.backing = .file .zeros
  · rw [if_pos hz, if_pos hz]
  · rw [if_neg hz, if_neg hz]
    cases ha : m.inside? a 8 with
    | none => rfl
    | some i =>
      rw [laid, if_neg hz]
      cases hb : m.inside? b 8 with
      | none => simp [preload, hb]
      | some j =>
        have hlen := Bytes.length_ofWord w
        simp only [overlap, ha, hb, Bool.and_eq_false_iff, decide_eq_false_iff_not] at h
        rw [preload_one hb]
        dsimp only
        rw [Bytes.slice_overwrite m.bytes (by omega)]

theorem laid_comm (h : m.overlap a b = false) :
    (m.laid a v).laid b w = (m.laid b w).laid a v := by
  have hshape := sameShape_laid m a v
  have hshape' := sameShape_laid m b w
  by_cases hz : m.backing = .file .zeros
  · simp only [laid, hz, if_true]
  · unfold laid at hshape hshape' ⊢
    simp only [hz, if_false] at hshape hshape' ⊢
    rw [← hshape.backing, ← hshape'.backing]
    simp only [hz, if_false]
    cases ha : m.inside? a 8 with
    | none =>
      have ha' : (m.preload [(b, w)]).inside? a 8 = none := by rw [← hshape'.inside?, ha]
      simp [preload, ha] at ha' ⊢
      cases hb : m.inside? b 8 <;> simp_all
    | some i =>
      have ha' : (m.preload [(b, w)]).inside? a 8 = some i := by rw [← hshape'.inside?, ha]
      cases hb : m.inside? b 8 with
      | none =>
        have hb' : (m.preload [(a, v)]).inside? b 8 = none := by rw [← hshape.inside?, hb]
        simp [preload, hb] at hb' ⊢
        simp [hb']
      | some j =>
        have hb' : (m.preload [(a, v)]).inside? b 8 = some j := by rw [← hshape.inside?, hb]
        have hlv := Bytes.length_ofWord v
        have hlw := Bytes.length_ofWord w
        simp only [overlap, ha, hb, Bool.and_eq_false_iff, decide_eq_false_iff_not] at h
        rw [preload_one hb', preload_one ha', preload_one ha, preload_one hb]
        dsimp only
        rw [Bytes.overwrite_comm m.bytes (by omega)]

end Memory

end Paging
