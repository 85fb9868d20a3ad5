import Paging.Proofs.Slots

/-!
# Places of words

A window and a direct map want the physical address of a word to be a multiple of eight, but access
the word where that address comes to lie: so many bytes after the beginning of the window, or at the
address moved by the offset of the map. That place is a multiple of eight for every word if the base
or the offset is one, and else for none (`Memory.words_placed`).
-/

namespace Paging

namespace Backing

/-- Words are accessed in place, as one unit each. -/
def IsMapped : Backing → Prop
  | .window _ | .direct _ => True
  | .emulated _ | .file _ => False

/-- What the place of a byte differs by from its address. -/
def distance : Backing → Word
  | .window base => base
  | .direct offset => offset
  | .emulated _ | .file _ => 0

theorem isMapped_iff {b : Backing} :
    b.IsMapped ↔ (∃ base, b = .window base) ∨ ∃ offset, b = .direct offset := by
  cases b <;> simp [IsMapped]

end Backing

namespace Memory

variable {m m' : Memory} {a : PhysicalAddress} {w : Word} {place : Nat}

/-- The address of the word passes the alignment check, and the word lies at this place: the first
of its bytes, counted from the beginning of the window or as an address of the host. -/
structure PlacesWord (m : Memory) (a : PhysicalAddress) (place : Nat) : Prop where
  checked : m.misaligned a = false
  position : position? m.backing a = some place

/-- Where the words of a memory are accessed. -/
structure WordPlaces (m : Memory) : Prop where
  read_iff : ∀ a w, m.readWord a = .ok w ↔
    ∃ place, m.PlacesWord a place ∧ place + 8 ≤ m.size ∧
      w = Bytes.toWord (Bytes.slice m.bytes place (place + 8))
  write_iff : ∀ a w m', m.writeWord a w = .ok m' ↔
    ∃ place, m.PlacesWord a place ∧ place + 8 ≤ m.size ∧
      m' = { m with bytes := Bytes.overwrite m.bytes place (Bytes.ofWord w) }
  aligned_iff : ∀ a place, m.PlacesWord a place →
    (place % 8 = 0 ↔ m.backing.distance.toNat % 8 = 0)

theorem placesWord_inside_iff : m.PlacesWord a place ∧ place + 8 ≤ m.size ↔
    m.misaligned a = false ∧ m.inside? a 8 = some place := by
  constructor
  · rintro ⟨hp, hsize⟩
    rw [inside?, hp.position, Option.filter_some, if_pos (decide_eq_true hsize)]
    exact ⟨hp.checked, rfl⟩
  · rintro ⟨hchecked, hinside⟩
    obtain ⟨hposition, hsize⟩ := inside?_eq_some hinside
    exact ⟨⟨hchecked, hposition⟩, hsize⟩

section Mapped

variable (h : m.backing.IsMapped)
include h

theorem checked_iff : m.misaligned a = false ↔ a.Aligned := by
  obtain ⟨base, hm⟩ | ⟨offset, hm⟩ := Backing.isMapped_iff.mp h <;>
    simp [misaligned, hm, alignsWords, PhysicalAddress.alignedTo_iff]

/-- The place and the distance add up to the address, or the place is the sum of the other two. -/
theorem PlacesWord.aligned_iff (hp : m.PlacesWord a place) :
    place % 8 = 0 ↔ m.backing.distance.toNat % 8 = 0 := by
  have haddress : a.toNat % 8 = 0 := (checked_iff h).mp hp.checked
  have hposition := hp.position
  obtain ⟨base, hm⟩ | ⟨offset, hm⟩ := Backing.isMapped_iff.mp h
  · rw [hm, position?] at hposition
    split at hposition
    · obtain rfl := Option.some.inj hposition
      simp only [hm, Backing.distance]
      omega
    · cases hposition
  · rw [hm, position?, Option.some.injEq, UInt64.toNat_add] at hposition
    simp only [hm, Backing.distance]
    simp only [Address.toNat] at haddress
    omega

theorem readWord_mapped :
    m.readWord a =
      if m.misaligned a then .error (refusal a)
      else
        match m.inside? a 8 with
        | some start => .ok (Bytes.toWord (Bytes.slice m.bytes start (start + 8)))
        | none => .error (refusal a) := by
  obtain ⟨base, hm⟩ | ⟨offset, hm⟩ := Backing.isMapped_iff.mp h <;>
    simp only [readWord, readBytes, hm] <;> cases m.inside? a 8 <;> rfl

theorem writeWord_mapped :
    m.writeWord a w =
      if m.misaligned a then .error (refusal a)
      else
        match m.inside? a 8 with
        | some start => .ok { m with bytes := Bytes.overwrite m.bytes start (Bytes.ofWord w) }
        | none => .error (refusal a) := by
  obtain ⟨base, hm⟩ | ⟨offset, hm⟩ := Backing.isMapped_iff.mp h <;>
    cases hi : m.inside? a 8 <;> simp only [writeWord, writeBytes, hm, hi, Bytes.length_ofWord]

theorem readWord_eq_ok_iff_placesWord : m.readWord a = .ok w ↔
    ∃ place, m.PlacesWord a place ∧ place + 8 ≤ m.size ∧
      w = Bytes.toWord (Bytes.slice m.bytes place (place + 8)) := by
  rw [readWord_mapped h]
  simp only [← and_assoc, placesWord_inside_iff]
  cases m.misaligned a <;> cases m.inside? a 8 <;> simp [eq_comm]

theorem writeWord_eq_ok_iff_placesWord : m.writeWord a w = .ok m' ↔
    ∃ place, m.PlacesWord a place ∧ place + 8 ≤ m.size ∧
      m' = { m with bytes := Bytes.overwrite m.bytes place (Bytes.ofWord w) } := by
  rw [writeWord_mapped h]
  simp only [← and_assoc, placesWord_inside_iff]
  cases m.misaligned a <;> cases m.inside? a 8 <;> simp [eq_comm]

theorem words_placed : m.WordPlaces where
  read_iff _ _ := readWord_eq_ok_iff_placesWord h
  write_iff _ _ _ := writeWord_eq_ok_iff_placesWord h
  aligned_iff _ _ := PlacesWord.aligned_iff h

end Mapped

/-- A window whose base is a multiple of eight and of no larger power of two. -/
theorem words_placed_window : (Backing.window 0x100008).IsMapped ∧
    (⟨.window 0x100008, Array.replicate 20 0⟩ : Memory).WordPlaces :=
  ⟨trivial, words_placed trivial⟩

/-- The word at address 8 lies four bytes after the beginning of a window that begins at address 4,
and at address 12 of the host under a map that is four bytes off. -/
theorem words_askew :
    let window : Memory := ⟨.window 4, #[0, 0, 0, 0, 1, 2, 3, 4, 5, 6, 7, 8]⟩
    let direct : Memory := ⟨.direct 4, Array.replicate 8 0 ++ window.bytes⟩
    (window.PlacesWord ⟨8⟩ 4 ∧ ¬4 % 8 = 0 ∧
      window.readWord ⟨8⟩ = .ok (Bytes.toWord (Bytes.slice window.bytes 4 12))) ∧
    (direct.PlacesWord ⟨8⟩ 12 ∧ ¬12 % 8 = 0 ∧
      direct.readWord ⟨8⟩ = .ok (Bytes.toWord (Bytes.slice direct.bytes 12 20))) := by
  intro window direct
  have hwindow : window.PlacesWord ⟨8⟩ 4 := ⟨by decide, by decide⟩
  have hdirect : direct.PlacesWord ⟨8⟩ 12 := ⟨by decide, by decide⟩
  have hreadWindow := (readWord_eq_ok_iff_placesWord (m := window) trivial).mpr
    ⟨4, hwindow, by decide, rfl⟩
  have hreadDirect := (readWord_eq_ok_iff_placesWord (m := direct) trivial).mpr
    ⟨12, hdirect, by decide, rfl⟩
  exact ⟨⟨hwindow, by decide, hreadWindow⟩, hdirect, by decide, hreadDirect⟩

end Memory

end Paging
