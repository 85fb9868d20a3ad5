import Paging.Proofs.Atomicity

/-!
# Reading over written words

After words were written, an aligned word reads as the last store to its address says, and as before
if there was none (`Memory.readWord_writeWords`). A walk over memory in which entries were rewritten
takes the same path as before if every entry still sends it the same way
(`Engine.visited_rewritten`).
-/

namespace Paging

theorem Bytes.slice_overwrite_self (bytes : Array UInt8) {i : Nat} {bs : List UInt8}
    (h : i + bs.length ≤ bytes.size) : slice (overwrite bytes i bs) i (i + bs.length) = bs := by
  have hsize := size_overwrite bytes i bs
  unfold slice
  apply List.ext_getElem?
  intro p
  rw [Array.getElem?_toList, Array.getElem?_extract, hsize]
  split
  · rename_i hp
    rw [getElem?_overwrite _ i _ _ (by omega), if_pos (by omega)]
    congr 1
    omega
  · rename_i hp
    rw [List.getElem?_eq_none (by omega)]

namespace Memory

variable {m : Memory} {a b : PhysicalAddress} {w : Word}

theorem wordAt_laid_self (hz : m.backing ≠ .file .zeros) {start : Nat}
    (hin : m.inside? a 8 = some start) : (m.laid a w).wordAt a = w := by
  have hshape := sameShape_laid m a w
  have hlen := Bytes.length_ofWord w
  have hfit : start + (Bytes.ofWord w).length ≤ m.bytes.size := by
    rw [hlen]
    exact (inside?_eq_some hin).2
  unfold wordAt
  rw [← hshape.backing, if_neg hz, ← hshape.inside?, hin, laid, if_neg hz, preload_one hin]
  have hself := Bytes.slice_overwrite_self m.bytes hfit
  rw [hlen] at hself
  simp only [hself, Bytes.toWord_ofWord]

theorem readWord_laid (hz : m.backing ≠ .file .zeros) (hread : m.Readable a) (ha : a.Aligned)
    (hb : b.Aligned) (w : Word) :
    (m.laid a w).readWord b = if a = b then .ok w else m.readWord b := by
  rw [readWord_eq (m.laid a w), ← (sameShape_laid m a w).readRefusal?]
  by_cases hab : a = b
  · subst hab
    obtain ⟨u, hu⟩ := hread
    obtain ⟨hzeros, _⟩ | ⟨_, start, hin⟩ := inside_of_readWord hu
    · exact absurd hzeros hz
    · rw [if_pos rfl, readable_iff.mp ⟨u, hu⟩, wordAt_laid_self hz hin]
  · have hapart : m.overlap b a = false := m.overlap_of_aligned hb ha (Ne.symm hab)
    rw [if_neg hab, wordAt_laid hapart, readWord_eq]

/-- What the last of some stores to an address puts there. -/
def lastStore? (stores : List (PhysicalAddress × Word)) (b : PhysicalAddress) : Option Word :=
  (stores.reverse.find? fun s => s.1 == b).map Prod.snd

theorem lastStore?_cons (s : PhysicalAddress × Word) (rest : List (PhysicalAddress × Word))
    (b : PhysicalAddress) :
    lastStore? (s :: rest) b = (lastStore? rest b).or (if s.1 = b then some s.2 else none) := by
  unfold lastStore?
  rw [List.reverse_cons, List.find?_append, Option.map_or]
  congr 1
  by_cases h : s.1 = b <;> simp [h]

theorem lastStore?_eq_none {stores : List (PhysicalAddress × Word)}
    (h : ∀ s ∈ stores, s.1 ≠ b) : lastStore? stores b = none := by
  induction stores with
  | nil => rfl
  | cons s rest ih =>
    rw [lastStore?_cons, ih fun s hs => h s (List.mem_cons_of_mem _ hs),
      if_neg (h s (List.mem_cons_self ..))]
    rfl

/-- It does not matter which store is the last if all of them put the same word there. -/
theorem lastStore?_eq_some {stores : List (PhysicalAddress × Word)} (hmem : (b, w) ∈ stores)
    (h : ∀ s ∈ stores, s.1 = b → s.2 = w) : lastStore? stores b = some w := by
  induction stores with
  | nil => cases hmem
  | cons s rest ih =>
    rw [lastStore?_cons]
    by_cases hrest : ∀ s ∈ rest, s.1 ≠ b
    · rcases List.mem_cons.mp hmem with rfl | hmem
      · rw [lastStore?_eq_none hrest, if_pos rfl]
        rfl
      · exact absurd rfl (hrest _ hmem)
    · simp only [Classical.not_forall, Classical.not_not] at hrest
      obtain ⟨⟨a, v⟩, hs, rfl⟩ := hrest
      have hv : v = w := h _ (List.mem_cons_of_mem _ hs) rfl
      subst hv
      rw [ih hs fun s hs => h s (List.mem_cons_of_mem _ hs)]
      rfl

theorem readWord_writeWords (stores : List (PhysicalAddress × Word)) (m : Memory)
    (h : ∀ s ∈ stores, m.backing ≠ .file .zeros ∧ m.Readable s.1 ∧ s.1.Aligned)
    (hok : (writeWords stores m).1 = none) (hb : b.Aligned) :
    (writeWords stores m).2.readWord b =
      match lastStore? stores b with
      | some w => .ok w
      | none => m.readWord b := by
  induction stores generalizing m with
  | nil => rfl
  | cons s rest ih =>
    obtain ⟨a, w⟩ := s
    obtain ⟨hz, hread, ha⟩ := h (a, w) (List.mem_cons_self ..)
    have hwrite := writeWord_of_readable hread w
    rw [writeWords] at hok ⊢
    cases hr : m.writeRefusal? a with
    | some r =>
      rw [hr] at hwrite
      rw [hwrite] at hok
      cases hok
    | none =>
      rw [hr] at hwrite
      rw [hwrite] at hok ⊢
      have hshape := sameShape_laid m a w
      have hrest := ih (m.laid a w)
        (fun s hs => by
          rw [← hshape.backing, ← hshape.readable]
          exact h s (List.mem_cons_of_mem _ hs)) hok
      simp only [hrest, lastStore?_cons, readWord_laid hz hread ha hb]
      cases lastStore? rest b with
      | some v => rfl
      | none => by_cases hab : a = b <;> simp [hab]

end Memory

namespace Engine

variable (e : Engine) (vaddr : VirtualAddress) {memory memory' : Memory} {visits : List Visit}

/-- An entry that sends a walk the way that the one it visited sent it. -/
structure SameWay (v : Visit) (raw : Word) : Prop where
  present : e.arch.isPresent (Geometry.kind v.level) raw =
    e.arch.isPresent (Geometry.kind v.level) v.raw
  huge : e.arch.isHuge raw = e.arch.isHuge v.raw
  table : e.arch.isHuge v.raw = false → e.arch.tableAddress raw = e.arch.tableAddress v.raw

theorem descent_rewritten {levels : List Level} {table : PhysicalAddress} (f : Visit → Word)
    (h : e.descent vaddr memory levels table = .ok visits)
    (hread : ∀ v ∈ visits, memory'.readWord v.slot = .ok (f v))
    (hway : ∀ v ∈ visits, v.level = Level.last ∨ e.SameWay v (f v)) :
    e.descent vaddr memory' levels table = .ok (visits.map fun v => { v with raw := f v }) := by
  induction levels generalizing table visits with
  | nil =>
    cases h
    rfl
  | cons l deeper ih =>
    simp only [descent] at h
    cases hw : memory.readWord (e.slotAddress table vaddr l) with
    | error r =>
      rw [hw] at h
      cases h
    | ok raw =>
      let here : Visit := ⟨l, e.slotAddress table vaddr l, raw,
        l == Level.last || e.arch.isPresent (Geometry.kind l) raw⟩
      simp only [hw] at h
      have hfirst : here ∈ visits := by
        split at h
        · cases h
          exact List.mem_cons_self ..
        · cases hd : e.descent vaddr memory deeper (e.arch.tableAddress raw) with
          | error err =>
            rw [hd] at h
            cases h
          | ok rest =>
            rw [hd] at h
            cases h
            exact List.mem_cons_self ..
      have hhere : memory'.readWord (e.slotAddress table vaddr l) = .ok (f here) :=
        hread here hfirst
      simp only [descent, hhere]
      rcases hway here hfirst with hlast | hsame
      · -- at the last level the walk ends whatever it finds
        have hl : l = Level.last := hlast
        subst hl
        simp only [beq_self_eq_true, Bool.true_or, Bool.not_true, Bool.or_true, if_true] at h ⊢
        cases h
        rfl
      · have hpresent : e.arch.isPresent (Geometry.kind l) (f here) =
            e.arch.isPresent (Geometry.kind l) raw := hsame.present
        have hhuge : e.arch.isHuge (f here) = e.arch.isHuge raw := hsame.huge
        rw [hpresent, hhuge]
        split at h
        · rename_i hends
          cases h
          rw [if_pos hends]
          rfl
        · rename_i hends
          rw [if_neg hends]
          have htable : e.arch.tableAddress (f here) = e.arch.tableAddress raw := by
            apply hsame.table
            cases hx : e.arch.isHuge raw with
            | true => simp [hx] at hends
            | false => rfl
          cases hd : e.descent vaddr memory deeper (e.arch.tableAddress raw) with
          | error err =>
            rw [hd] at h
            cases h
          | ok rest =>
            rw [hd] at h
            cases h
            have hrest := ih hd (fun v hv => hread v (List.mem_cons_of_mem _ hv))
              fun v hv => hway v (List.mem_cons_of_mem _ hv)
            rw [htable, hrest]
            rfl

theorem visited_rewritten {root : PhysicalAddress} (f : Visit → Word)
    (h : e.visited vaddr memory root = .ok visits)
    (hread : ∀ v ∈ visits, memory'.readWord v.slot = .ok (f v))
    (hway : ∀ v ∈ visits, v.level = Level.last ∨ e.SameWay v (f v)) :
    e.visited vaddr memory' root = .ok (visits.map fun v => { v with raw := f v }) := by
  unfold visited at h ⊢
  split at h
  · rename_i hnull
    cases h
    rw [if_pos hnull]
    rfl
  · rename_i hnull
    rw [if_neg hnull]
    exact e.descent_rewritten vaddr f h hread hway

end Engine

end Paging
