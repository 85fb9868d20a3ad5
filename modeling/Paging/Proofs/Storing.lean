import Paging.Memory

/-!
# Storing words

A word that was read can be written back in place: whatever the backing, its eight bytes lie inside
the array, so that a write there neither grows the memory nor touches another byte. Writing several
such words amounts to `preload`, which lays them over the array one after the other
(`writeWords_eq_preload`).
-/

namespace Paging.Memory

variable {m m' : Memory} {a : PhysicalAddress} {w : Word} {start : Nat}

/-- The eight bytes at an address take in position `p` of the array. -/
def covers (m : Memory) (a : PhysicalAddress) (p : Nat) : Bool :=
  (m.inside? a 8).any fun start => decide (start ≤ p) && decide (p < start + 8)

/-- Writes words in order up to the first that is refused. -/
def writeWords : List (PhysicalAddress × Word) → Memory → Option Error × Memory
  | [], m => (none, m)
  | (a, w) :: rest, m =>
    match m.writeWord a w with
    | .ok m => writeWords rest m
    | .error r => (some r.error, m)

theorem inside?_eq_some {count : Nat} (h : m.inside? a count = some start) :
    position? m.backing a = some start ∧ start + count ≤ m.size := by
  unfold inside? at h
  obtain ⟨hp, hle⟩ := Option.filter_eq_some_iff.mp h
  exact ⟨hp, of_decide_eq_true hle⟩

/-! ### Laying words over memory -/

theorem preload_cons (s : PhysicalAddress × Word) (rest : List (PhysicalAddress × Word)) :
    m.preload (s :: rest) = (m.preload [s]).preload rest := rfl

theorem preload_one (h : m.inside? a 8 = some start) :
    m.preload [(a, w)] = { m with bytes := Bytes.overwrite m.bytes start (Bytes.ofWord w) } := by
  simp [preload, h]

theorem backing_preload (stores : List (PhysicalAddress × Word)) (m : Memory) :
    (m.preload stores).backing = m.backing := by
  induction stores generalizing m with
  | nil => rfl
  | cons s rest ih =>
    obtain ⟨a, w⟩ := s
    rw [preload_cons, ih]
    cases h : m.inside? a 8 with
    | none => simp [preload, h]
    | some start => rw [preload_one h]

theorem size_preload (stores : List (PhysicalAddress × Word)) (m : Memory) :
    (m.preload stores).size = m.size := by
  induction stores generalizing m with
  | nil => rfl
  | cons s rest ih =>
    obtain ⟨a, w⟩ := s
    rw [preload_cons, ih]
    cases h : m.inside? a 8 with
    | none => simp [preload, h]
    | some start =>
      have hsize := Bytes.size_overwrite m.bytes start (Bytes.ofWord w)
      rw [preload_one h]
      simpa only [size] using hsize

theorem inside?_preload (stores : List (PhysicalAddress × Word)) (m : Memory)
    (a : PhysicalAddress) (count : Nat) :
    (m.preload stores).inside? a count = m.inside? a count := by
  simp only [inside?, backing_preload, size_preload]

/-- A byte that no word covers stays. -/
theorem getElem?_preload (stores : List (PhysicalAddress × Word)) (m : Memory) {p : Nat}
    (hout : ∀ s ∈ stores, m.covers s.1 p = false) :
    (m.preload stores).bytes[p]? = m.bytes[p]? := by
  induction stores generalizing m with
  | nil => rfl
  | cons s rest ih =>
    obtain ⟨a, w⟩ := s
    have hrest : ∀ s ∈ rest, (m.preload [(a, w)]).covers s.1 p = false := by
      intro s hs
      have h := hout s (List.mem_cons_of_mem _ hs)
      simpa only [covers, inside?_preload] using h
    rw [preload_cons, ih _ hrest]
    cases h : m.inside? a 8 with
    | none => simp [preload, h]
    | some start =>
      have hp := hout (a, w) (List.mem_cons_self ..)
      simp only [covers, h, Option.any_some, Bool.and_eq_false_iff, decide_eq_false_iff_not] at hp
      have hle := (inside?_eq_some h).2
      have hlen := Bytes.length_ofWord w
      rw [preload_one h]
      dsimp only
      by_cases hlt : p < m.bytes.size
      · rw [Bytes.getElem?_overwrite _ _ _ _ hlt, if_neg (by omega)]
      · have hsize := Bytes.size_overwrite m.bytes start (Bytes.ofWord w)
        rw [Array.getElem?_eq_none (by omega), Array.getElem?_eq_none (by omega)]

/-! ### Writing where a word was read -/

/-- A word that can be read lies inside the array, unless nothing does, because the file reads as
zeros at every position. -/
theorem inside_of_readWord (h : m.readWord a = .ok w) :
    (m.backing = .file .zeros ∧ w = 0) ∨
      m.backing ≠ .file .zeros ∧ ∃ start, m.inside? a 8 = some start := by
  unfold readWord at h
  split at h
  · cases h
  · cases hb : m.readBytes a 8 with
    | error r =>
      rw [hb] at h
      cases h
    | ok bytes =>
      simp only [hb, Except.map, Except.ok.injEq] at h
      unfold readBytes at hb
      split at hb
      · rename_i mode hm
        simp only [show ¬ (8 = 0) by decide, if_false] at hb
        split at hb
        · cases hb
        · by_cases hz : mode = .zeros
          · simp only [hz, if_true, Except.ok.injEq] at hb
            left
            rw [hm, hz, ← h, ← hb]
            exact ⟨rfl, by decide⟩
          · simp only [hz, if_false] at hb
            right
            refine ⟨by simp [hm, hz], ?_⟩
            cases hi : m.inside? a 8 with
            | none => simp [hi] at hb
            | some start => exact ⟨start, rfl⟩
      · rename_i hm
        right
        refine ⟨fun hf => hm _ hf, ?_⟩
        cases hi : m.inside? a 8 with
        | none => simp [hi] at hb
        | some start => exact ⟨start, rfl⟩

theorem isEmpty_ofWord (w : Word) : (Bytes.ofWord w).isEmpty = false := by
  have hlen := Bytes.length_ofWord w
  cases hw : Bytes.ofWord w with
  | nil => simp [hw] at hlen
  | cons b bs => rfl

theorem grow_of_le {bytes : Array UInt8} {size : Nat} (h : size ≤ bytes.size) :
    Bytes.grow bytes size = bytes := by
  have hzero : size - bytes.size = 0 := by omega
  simp [Bytes.grow, hzero]

theorem writeWord_eq_preload (hin : m.inside? a 8 = some start) (hz : m.backing ≠ .file .zeros)
    (h : m.writeWord a w = .ok m') : m' = m.preload [(a, w)] := by
  obtain ⟨hpos, hle⟩ := inside?_eq_some hin
  have hlen := Bytes.length_ofWord w
  rw [preload_one hin]
  unfold writeWord at h
  split at h
  · cases h
  · unfold writeBytes at h
    split at h
    · rename_i mode hm
      have hne := isEmpty_ofWord w
      have hmode : mode ≠ .zeros := fun hmode => hz (by rw [hm, hmode])
      simp only [hne, Bool.false_eq_true, if_false, hmode] at h
      split at h
      · cases h
      · -- the file already reaches to the end of the word, so it does not grow
        have hstart : a.toNat = start := by
          rw [hm] at hpos
          exact Option.some.inj hpos
        have hgrow : Bytes.grow m.bytes (a.toNat + (Bytes.ofWord w).length) = m.bytes :=
          grow_of_le (by rw [hstart, hlen]; exact hle)
        rw [← Except.ok.inj h, hgrow, hstart]
    · rw [hlen, hin] at h
      exact (Except.ok.inj h).symm

theorem writeWords_eq_preload (stores : List (PhysicalAddress × Word)) (m : Memory)
    (hz : m.backing ≠ .file .zeros) (hin : ∀ s ∈ stores, ∃ start, m.inside? s.1 8 = some start)
    (h : (writeWords stores m).1 = none) : (writeWords stores m).2 = m.preload stores := by
  induction stores generalizing m with
  | nil => rfl
  | cons s rest ih =>
    obtain ⟨a, w⟩ := s
    obtain ⟨start, hstart⟩ := hin (a, w) (List.mem_cons_self ..)
    rw [writeWords] at h ⊢
    cases hw : m.writeWord a w with
    | error r => simp [hw] at h
    | ok m' =>
      have hm' := writeWord_eq_preload hstart hz hw
      subst hm'
      simp only [hw] at h ⊢
      rw [preload_cons]
      apply ih _ (by rwa [backing_preload]) _ h
      intro s hs
      obtain ⟨start, hstart⟩ := hin s (List.mem_cons_of_mem _ hs)
      exact ⟨start, by rwa [inside?_preload]⟩

end Paging.Memory
