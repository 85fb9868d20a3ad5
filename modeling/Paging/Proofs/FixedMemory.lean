import Paging.Machine
import Paging.Proofs.Slots

/-!
# Memory of fixed size

Emulated memory and a window are bounded arrays of bytes: `byteAt` is the byte at an address, and an
access goes through if all of its addresses lie inside (`Holds`). A read gives these bytes, a write
changes those at its addresses and no other, and a word is eight bytes, least significant first
(`ActsAsArray`). That bounds are checked in words, whose sums could wrap, makes no difference
(`map_wordStart?`). Whether a word lies aligned within its window does not matter here.
-/

namespace Paging

/-! ### Bytes -/

namespace Bytes

theorem getElem?_ofNat {count i : Nat} (h : i < count) (n : Nat) :
    (ofNat count n)[i]? = some (UInt8.ofNat (n / 256 ^ i)) := by
  induction count generalizing i n with
  | zero => cases h
  | succ count ih =>
    cases i with
    | zero => simp [ofNat]
    | succ i =>
      rw [ofNat, List.getElem?_cons_succ, ih (Nat.lt_of_succ_lt_succ h), Nat.div_div_eq_div_mul,
        Nat.pow_succ']

theorem getElem?_slice (bytes : Array UInt8) (start : Nat) {count i : Nat} (h : i < count) :
    (slice bytes start (start + count))[i]? = bytes[start + i]? := by
  rw [slice, Array.getElem?_toList, Array.getElem?_extract]
  split
  · rfl
  · rw [Array.getElem?_eq_none (by omega)]

end Bytes

namespace Backing

/-- One address after the other, of a size that no write changes. -/
def IsFixed : Backing → Prop
  | .emulated _ | .window _ => True
  | .direct _ | .file _ => False

/-- The address of the first byte. -/
def base : Backing → Nat
  | .window base => base.toNat
  | .emulated _ | .direct _ | .file _ => 0

end Backing

namespace Memory

variable {m m' : Memory} {a b : PhysicalAddress} {count : Nat} {bs : List UInt8} {w : Word}

/-! ### Bounds -/

/-- All addresses of an access lie inside. -/
def Holds (m : Memory) (a : PhysicalAddress) (count : Nat) : Prop :=
  m.backing.base ≤ a.toNat ∧ a.toNat - m.backing.base + count ≤ m.size

/-- A word can be accessed: a window takes words at multiples of eight only. -/
def TakesWord (m : Memory) (a : PhysicalAddress) : Prop :=
  m.Holds a 8 ∧ ∀ base, m.backing = .window base → a.Aligned

/-- The byte at an address, if that lies inside. -/
def byteAt (m : Memory) (n : Nat) : Option UInt8 :=
  if m.backing.base ≤ n then m.bytes[n - m.backing.base]? else none

/-- The memory with bytes written at an address inside. -/
def withBytes (m : Memory) (a : PhysicalAddress) (bs : List UInt8) : Memory :=
  { m with bytes := Bytes.overwrite m.bytes (a.toNat - m.backing.base) bs }

theorem sameShape_withBytes (m : Memory) (a : PhysicalAddress) (bs : List UInt8) :
    (m.withBytes a bs).SameShape m := ⟨rfl, Bytes.size_overwrite ..⟩

theorem holds_withBytes : (m.withBytes a bs).Holds b count ↔ m.Holds b count := by
  unfold Holds
  rw [(m.sameShape_withBytes a bs).size]
  exact Iff.rfl

theorem position?_eq {backing : Backing} (hb : ∀ offset, backing ≠ .direct offset)
    (a : PhysicalAddress) : position? backing a =
      if backing.base ≤ a.toNat then some (a.toNat - backing.base) else none := by
  cases backing with
  | emulated cursor | file mode => exact (if_pos (Nat.zero_le _)).symm
  | window base => rfl
  | direct offset => exact absurd rfl (hb offset)

theorem inside?_of_holds (hb : ∀ offset, m.backing ≠ .direct offset) (h : m.Holds a count) :
    m.inside? a count = some (a.toNat - m.backing.base) := by
  rw [inside?, position?_eq hb, if_pos h.1, Option.filter_some, if_pos (decide_eq_true h.2)]

theorem inside?_of_not_holds (hb : ∀ offset, m.backing ≠ .direct offset) (h : ¬m.Holds a count) :
    m.inside? a count = none := by
  rw [inside?, position?_eq hb]
  by_cases hbase : m.backing.base ≤ a.toNat
  · have hstop : ¬a.toNat - m.backing.base + count ≤ m.size := fun hstop => h ⟨hbase, hstop⟩
    rw [if_pos hbase, Option.filter_some, if_neg (by simpa using hstop)]
  · rw [if_neg hbase]
    rfl

/-- Where an access begins in the array, worked out in words that no step may leave. -/
def wordStart? (m : Memory) (a : PhysicalAddress) (count : Word) : Option Word := do
  let start ←
    match m.backing with
    | .window base => if base ≤ a.word then some (a.word - base) else none
    | _ => some a.word
  let stop ← Word.add? start count
  if stop ≤ UInt64.ofNat m.size then some start else none

theorem ne_direct_of_isFixed (h : m.backing.IsFixed) (offset : Word) :
    m.backing ≠ .direct offset := by
  intro hm
  rw [hm] at h
  exact h

theorem map_wordStart? (h : m.backing.IsFixed) (hs : m.size < 2 ^ 64) (a : PhysicalAddress)
    (count : Word) : (m.wordStart? a count).map UInt64.toNat = m.inside? a count.toNat := by
  have hsize : (UInt64.ofNat m.size).toNat = m.size := by
    rw [UInt64.toNat_ofNat', Nat.mod_eq_of_lt hs]
  have hstop : ∀ start : Word,
      (((Word.add? start count).bind fun stop =>
        if stop ≤ UInt64.ofNat m.size then some start else none).map UInt64.toNat) =
        (some start.toNat).filter fun start => decide (start + count.toNat ≤ m.size) := by
    intro start
    rw [Option.filter_some, Word.add?]
    by_cases hlt : start.toNat + count.toNat < 2 ^ 64
    · have hsum : (start + count).toNat = start.toNat + count.toNat := by
        rw [UInt64.toNat_add, Nat.mod_eq_of_lt hlt]
      have hcompare : start + count ≤ UInt64.ofNat m.size ↔
          start.toNat + count.toNat ≤ m.size := by rw [UInt64.le_iff_toNat_le, hsum, hsize]
      rw [if_pos hlt, Option.bind_some]
      by_cases hle : start.toNat + count.toNat ≤ m.size <;> simp [hcompare, hle]
    · have hout : ¬start.toNat + count.toNat ≤ m.size := by omega
      rw [if_neg hlt, if_neg (by simpa using hout)]
      rfl
  unfold wordStart? inside?
  cases hm : m.backing with
  | emulated cursor => exact hstop a.word
  | window base =>
    by_cases hle : base ≤ a.word
    · have hdist : (a.word - base).toNat = a.toNat - base.toNat := UInt64.toNat_sub_of_le _ _ hle
      simp only [position?, if_pos hle, if_pos (show base.toNat ≤ a.toNat from hle), ← hdist]
      exact hstop (a.word - base)
    · simp only [position?, if_neg hle, if_neg (show ¬base.toNat ≤ a.toNat from hle)]
      rfl
  | direct offset | file mode =>
    rw [hm] at h
    exact h.elim

/-! ### Accesses -/

section Fixed

variable (h : m.backing.IsFixed)
include h

theorem misaligned_iff (a : PhysicalAddress) :
    m.misaligned a = false ↔ ∀ base, m.backing = .window base → a.Aligned := by
  unfold misaligned
  cases hm : m.backing with
  | emulated cursor => simp [alignsWords]
  | window base => simp [alignsWords, PhysicalAddress.alignedTo_iff]
  | direct offset | file mode =>
    rw [hm] at h
    exact h.elim

theorem readBytes_eq (a : PhysicalAddress) (count : Nat) :
    m.readBytes a count =
      match m.inside? a count with
      | some start => .ok (Bytes.slice m.bytes start (start + count))
      | none => .error (refusal a) := by
  unfold readBytes
  split
  · rename_i mode hm
    rw [hm] at h
    exact h.elim
  · rfl

theorem writeBytes_eq (a : PhysicalAddress) (bs : List UInt8) :
    m.writeBytes a bs =
      match m.inside? a bs.length with
      | some start => .ok { m with bytes := Bytes.overwrite m.bytes start bs }
      | none => .error (refusal a) := by
  unfold writeBytes
  split
  · rename_i mode hm
    rw [hm] at h
    exact h.elim
  · rfl

theorem readBytes_of_holds (hin : m.Holds a count) :
    m.readBytes a count = .ok (Bytes.slice m.bytes (a.toNat - m.backing.base)
      (a.toNat - m.backing.base + count)) := by
  rw [readBytes_eq h, inside?_of_holds (ne_direct_of_isFixed h) hin]

theorem readBytes_of_not_holds (hout : ¬m.Holds a count) :
    m.readBytes a count = .error (refusal a) := by
  rw [readBytes_eq h, inside?_of_not_holds (ne_direct_of_isFixed h) hout]

theorem writeBytes_of_holds (hin : m.Holds a bs.length) :
    m.writeBytes a bs = .ok (m.withBytes a bs) := by
  rw [writeBytes_eq h, inside?_of_holds (ne_direct_of_isFixed h) hin, withBytes]

theorem writeBytes_of_not_holds (hout : ¬m.Holds a bs.length) :
    m.writeBytes a bs = .error (refusal a) := by
  rw [writeBytes_eq h, inside?_of_not_holds (ne_direct_of_isFixed h) hout]

theorem holds_of_readBytes (hread : m.readBytes a count = .ok bs) : m.Holds a count := by
  by_cases hin : m.Holds a count
  · exact hin
  · rw [readBytes_of_not_holds h hin] at hread
    cases hread

theorem holds_of_writeBytes (hwrite : m.writeBytes a bs = .ok m') : m.Holds a bs.length := by
  by_cases hin : m.Holds a bs.length
  · exact hin
  · rw [writeBytes_of_not_holds h hin] at hwrite
    cases hwrite

/-! ### Words -/

theorem readWord_eq_ok_iff : m.readWord a = .ok w ↔
    (∀ base, m.backing = .window base → a.Aligned) ∧ m.readBytes a 8 = .ok (Bytes.ofWord w) := by
  rw [← misaligned_iff h, readWord]
  cases hmis : m.misaligned a with
  | true => simp
  | false =>
    cases hread : m.readBytes a 8 with
    | error r => simp [Except.map]
    | ok bytes =>
      have hlen : bytes.length = 8 := by
        have hin := holds_of_readBytes h hread
        rw [readBytes_of_holds h hin] at hread
        cases hread
        exact Bytes.length_slice hin.2
      have hword : Bytes.toWord bytes = w ↔ bytes = Bytes.ofWord w := by
        constructor
        · rintro rfl
          exact (Bytes.ofWord_toWord hlen).symm
        · rintro rfl
          exact Bytes.toWord_ofWord w
      simp [Except.map, hword]

theorem writeWord_eq_ok_iff : m.writeWord a w = .ok m' ↔
    (∀ base, m.backing = .window base → a.Aligned) ∧
      m.writeBytes a (Bytes.ofWord w) = .ok m' := by
  rw [← misaligned_iff h, writeWord]
  cases m.misaligned a <;> simp

theorem readWord_isOk_iff : (∃ w, m.readWord a = .ok w) ↔ m.TakesWord a := by
  constructor
  · rintro ⟨w, hread⟩
    obtain ⟨haligned, hbytes⟩ := (readWord_eq_ok_iff h).mp hread
    exact ⟨holds_of_readBytes h hbytes, haligned⟩
  · rintro ⟨hin, haligned⟩
    have hbytes := readBytes_of_holds h hin
    rw [← Bytes.ofWord_toWord (Bytes.length_slice hin.2)] at hbytes
    exact ⟨_, (readWord_eq_ok_iff h).mpr ⟨haligned, hbytes⟩⟩

theorem writeWord_isOk_iff : (∃ m', m.writeWord a w = .ok m') ↔ m.TakesWord a := by
  have hlen := Bytes.length_ofWord w
  constructor
  · rintro ⟨m', hwrite⟩
    obtain ⟨haligned, hbytes⟩ := (writeWord_eq_ok_iff h).mp hwrite
    have hin := holds_of_writeBytes h hbytes
    rw [hlen] at hin
    exact ⟨hin, haligned⟩
  · rintro ⟨hin, haligned⟩
    rw [← hlen] at hin
    exact ⟨_, (writeWord_eq_ok_iff h).mpr ⟨haligned, writeBytes_of_holds h hin⟩⟩

theorem readWord_of_refused (hout : ¬m.TakesWord a) : m.readWord a = .error (refusal a) := by
  rw [readWord]
  cases hmis : m.misaligned a with
  | true => rfl
  | false =>
    have hin : ¬m.Holds a 8 := fun hin => hout ⟨hin, (misaligned_iff h a).mp hmis⟩
    rw [readBytes_of_not_holds h hin]
    rfl

theorem writeWord_of_refused (hout : ¬m.TakesWord a) : m.writeWord a w = .error (refusal a) := by
  rw [writeWord]
  cases hmis : m.misaligned a with
  | true => rfl
  | false =>
    have hin : ¬m.Holds a (Bytes.ofWord w).length := by
      rw [Bytes.length_ofWord]
      exact fun hin => hout ⟨hin, (misaligned_iff h a).mp hmis⟩
    rw [writeBytes_of_not_holds h hin]
    rfl

end Fixed

/-! ### Reads and writes as those of an array -/

theorem byteAt_of_le {n : Nat} (hn : m.backing.base ≤ n) :
    m.byteAt n = m.bytes[n - m.backing.base]? := if_pos hn

/-- The memory differs from another in the bytes from an address on. -/
structure Overwritten (m : Memory) (a : PhysicalAddress) (bs : List UInt8) (m' : Memory) :
    Prop where
  backing : m'.backing = m.backing
  size : m'.size = m.size
  byteAt : ∀ n, m'.byteAt n =
    if a.toNat ≤ n ∧ n < a.toNat + bs.length then bs[n - a.toNat]? else m.byteAt n

theorem overwritten_of_holds (hin : m.Holds a bs.length) :
    m.Overwritten a bs (m.withBytes a bs) where
  backing := rfl
  size := (m.sameShape_withBytes a bs).size
  byteAt n := by
    obtain ⟨hbase, hstop⟩ := hin
    show (if m.backing.base ≤ n then (Bytes.overwrite m.bytes (a.toNat - m.backing.base)
      bs)[n - m.backing.base]? else none) = _
    unfold Memory.byteAt
    by_cases hn : m.backing.base ≤ n
    · by_cases hlt : n - m.backing.base < m.bytes.size
      · have hat := Bytes.getElem?_overwrite m.bytes (a.toNat - m.backing.base) bs _ hlt
        have hoffset : n - m.backing.base - (a.toNat - m.backing.base) = n - a.toNat := by omega
        rw [if_pos hn, if_pos hn, hat, hoffset]
        congr 1
        apply propext
        omega
      · have hsize := Bytes.size_overwrite m.bytes (a.toNat - m.backing.base) bs
        have hout : ¬(a.toNat ≤ n ∧ n < a.toNat + bs.length) := by
          unfold size at hstop
          omega
        rw [if_pos hn, if_pos hn, if_neg hout, Array.getElem?_eq_none (by omega),
          Array.getElem?_eq_none (by omega)]
    · rw [if_neg hn, if_neg hn, if_neg (by omega)]

end Memory

/-- What does not lie inside is refused at its address, and nothing changes. -/
structure Machine.RefusesOutside (machine : Machine) : Prop where
  readBytes : ∀ a count, ¬machine.memory.Holds a count → machine.perform (.readBytes a count) =
    ⟨[.readBytes a count], machine, .error (.physicalAccess a)⟩
  writeBytes : ∀ a bs, ¬machine.memory.Holds a bs.length → machine.perform (.writeBytes a bs) =
    ⟨[.writeBytes a bs.length], machine, .error (.physicalAccess a)⟩
  readWord : ∀ a, ¬machine.memory.TakesWord a → machine.perform (.readWord a) =
    ⟨[.readWord a], machine, .error (.physicalAccess a)⟩
  writeWord : ∀ a w, ¬machine.memory.TakesWord a → machine.perform (.writeWord a w) =
    ⟨[.writeWord a w], machine, .error (.physicalAccess a)⟩

namespace Memory

variable {m m' : Memory} {a b : PhysicalAddress} {count : Nat} {bs : List UInt8}

/-- Bytes are read and written as those of an array, and words as eight bytes each. -/
structure ActsAsArray (m : Memory) : Prop where
  readBytes_iff : ∀ a count, (∃ bs, m.readBytes a count = .ok bs) ↔ m.Holds a count
  readBytes : ∀ a count bs, m.readBytes a count = .ok bs →
    bs.length = count ∧ ∀ i < count, bs[i]? = m.byteAt (a.toNat + i)
  writeBytes_iff : ∀ a bs, (∃ m', m.writeBytes a bs = .ok m') ↔ m.Holds a bs.length
  writeBytes : ∀ a bs m', m.writeBytes a bs = .ok m' → m.Overwritten a bs m'
  /-- What is read inside after a write is new where the two overlap and old elsewhere. -/
  reread : ∀ a bs m', m.writeBytes a bs = .ok m' → ∀ b count, m.Holds b count →
    ∃ old new, m.readBytes b count = .ok old ∧ m'.readBytes b count = .ok new ∧
      ∀ i < count, new[i]? =
        if a.toNat ≤ b.toNat + i ∧ b.toNat + i < a.toNat + bs.length
        then bs[b.toNat + i - a.toNat]? else old[i]?
  readWord_iff : ∀ a, (∃ w, m.readWord a = .ok w) ↔ m.TakesWord a
  readWord : ∀ a w, m.readWord a = .ok w → m.readBytes a 8 = .ok (Bytes.ofWord w)
  writeWord_iff : ∀ a w, (∃ m', m.writeWord a w = .ok m') ↔ m.TakesWord a
  writeWord : ∀ a w m', m.writeWord a w = .ok m' → m.writeBytes a (Bytes.ofWord w) = .ok m'
  littleEndian : ∀ w, (Bytes.ofWord w).length = 8 ∧
    ∀ i < 8, (Bytes.ofWord w)[i]? = some (UInt8.ofNat (w.toNat / 256 ^ i))
  refused : ∀ machine : Machine, machine.memory = m → machine.RefusesOutside
  /-- Bounds are those of unbounded numbers, though they are checked in words. -/
  bounds : m.size < 2 ^ 64 → ∀ a count start, m.wordStart? a count = some start ↔
    m.Holds a count.toNat ∧ start.toNat = a.toNat - m.backing.base

section Fixed

variable (h : m.backing.IsFixed)
include h

theorem getElem?_of_readBytes (hread : m.readBytes a count = .ok bs) :
    bs.length = count ∧ ∀ i < count, bs[i]? = m.byteAt (a.toNat + i) := by
  have hin := holds_of_readBytes h hread
  rw [readBytes_of_holds h hin] at hread
  cases hread
  refine ⟨Bytes.length_slice hin.2, ?_⟩
  intro i hi
  have hbase : m.backing.base ≤ a.toNat := hin.1
  have hoffset : a.toNat - m.backing.base + i = a.toNat + i - m.backing.base := by omega
  rw [Bytes.getElem?_slice _ _ hi, byteAt_of_le (by omega), hoffset]

theorem overwritten_of_writeBytes (hwrite : m.writeBytes a bs = .ok m') :
    m.Overwritten a bs m' := by
  have hin := holds_of_writeBytes h hwrite
  rw [writeBytes_of_holds h hin] at hwrite
  cases hwrite
  exact overwritten_of_holds hin

theorem readBytes_after_writeBytes (hwrite : m.writeBytes a bs = .ok m') (hin : m.Holds b count) :
    ∃ old new, m.readBytes b count = .ok old ∧ m'.readBytes b count = .ok new ∧
      ∀ i < count, new[i]? =
        if a.toNat ≤ b.toNat + i ∧ b.toNat + i < a.toNat + bs.length
        then bs[b.toNat + i - a.toNat]? else old[i]? := by
  have ho := overwritten_of_writeBytes h hwrite
  rw [writeBytes_of_holds h (holds_of_writeBytes h hwrite)] at hwrite
  cases hwrite
  have h' : (m.withBytes a bs).backing.IsFixed := h
  have hin' : (m.withBytes a bs).Holds b count := holds_withBytes.mpr hin
  have hold := readBytes_of_holds h hin
  have hnew := readBytes_of_holds h' hin'
  refine ⟨_, _, hold, hnew, ?_⟩
  intro i hi
  rw [(getElem?_of_readBytes h' hnew).2 i hi, ho.byteAt, (getElem?_of_readBytes h hold).2 i hi]

theorem wordStart?_eq_some_iff (hs : m.size < 2 ^ 64) {count start : Word} :
    m.wordStart? a count = some start ↔
      m.Holds a count.toNat ∧ start.toNat = a.toNat - m.backing.base := by
  have hmap := map_wordStart? h hs a count
  have hdirect := ne_direct_of_isFixed h
  constructor
  · intro hstart
    rw [hstart, Option.map_some] at hmap
    by_cases hin : m.Holds a count.toNat
    · rw [inside?_of_holds hdirect hin] at hmap
      exact ⟨hin, Option.some.inj hmap⟩
    · rw [inside?_of_not_holds hdirect hin] at hmap
      cases hmap
  · rintro ⟨hin, hstart⟩
    rw [inside?_of_holds hdirect hin, ← hstart] at hmap
    obtain ⟨found, hfound, heq⟩ := Option.map_eq_some_iff.mp hmap
    rw [hfound, UInt64.toNat_inj.mp heq]

theorem refusesOutside {machine : Machine} (hm : machine.memory = m) :
    machine.RefusesOutside where
  readBytes a count hout := by
    rw [hm] at hout
    simp only [Machine.perform, hm, readBytes_of_not_holds h hout]
    rfl
  writeBytes a bs hout := by
    rw [hm] at hout
    simp only [Machine.perform, hm, writeBytes_of_not_holds h hout]
    rfl
  readWord a hout := by
    rw [hm] at hout
    simp only [Machine.perform, hm, readWord_of_refused h hout]
    rfl
  writeWord a w hout := by
    rw [hm] at hout
    simp only [Machine.perform, hm, writeWord_of_refused h hout]
    rfl

theorem acts_as_array : m.ActsAsArray where
  readBytes_iff _ _ := ⟨fun ⟨_, hread⟩ => holds_of_readBytes h hread,
    fun hin => ⟨_, readBytes_of_holds h hin⟩⟩
  readBytes _ _ _ := getElem?_of_readBytes h
  writeBytes_iff _ _ := ⟨fun ⟨_, hwrite⟩ => holds_of_writeBytes h hwrite,
    fun hin => ⟨_, writeBytes_of_holds h hin⟩⟩
  writeBytes _ _ _ := overwritten_of_writeBytes h
  reread _ _ _ hwrite _ _ := readBytes_after_writeBytes h hwrite
  readWord_iff _ := readWord_isOk_iff h
  readWord _ _ hread := ((readWord_eq_ok_iff h).mp hread).2
  writeWord_iff _ _ := writeWord_isOk_iff h
  writeWord _ _ _ hwrite := ((writeWord_eq_ok_iff h).mp hwrite).2
  littleEndian w := ⟨Bytes.length_ofWord w, fun _ hi => Bytes.getElem?_ofNat hi w.toNat⟩
  refused _ := refusesOutside h
  bounds hs _ _ _ := wordStart?_eq_some_iff h hs

end Fixed

/-- A window that ends with the last address but one. -/
theorem acts_as_array_window :
    (Backing.window 0xfffffffffffffff0).IsFixed ∧
      (⟨.window 0xfffffffffffffff0, Array.replicate 15 0⟩ : Memory).ActsAsArray :=
  ⟨trivial, acts_as_array trivial⟩

end Memory

end Paging
