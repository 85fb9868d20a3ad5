import Paging.Proofs.ReadBack

/-!
# Words of a file that an edit rewrites

Over a file a walk reads its entries at the positions that are their addresses. An edit of such a
file applies one function to the words at the slots of the levels that were selected and reached and
leaves every other byte (`EntryEdit.rewritten_file`), whether or not two levels share a slot: both
then write the same word.
-/

namespace Paging

namespace Bytes

/-- The word that eight bytes from an address on stand for. -/
def wordAt (bytes : Array UInt8) (a : PhysicalAddress) : Word :=
  toWord (slice bytes a.toNat (a.toNat + 8))

/-- The words at some addresses are others now, each by one function of what it was; all other bytes
are what they were, and there are as many of them. -/
structure Rewritten (before after : Array UInt8) (slots : List PhysicalAddress) (f : Word → Word) :
    Prop where
  inside : ∀ a ∈ slots, a.toNat + 8 ≤ before.size
  size_eq : after.size = before.size
  words : ∀ a ∈ slots, wordAt after a = f (wordAt before a)
  others : ∀ p, (∀ a ∈ slots, p < a.toNat ∨ a.toNat + 8 ≤ p) → after[p]? = before[p]?

end Bytes

/-! ### The levels that a walk reaches -/

namespace Translation

variable (x : Translation)

/-- The levels that a walk reaches, root first. A space without a root has none. -/
def walked : List Level := if x.root.isNull then [] else x.reached

def slotOf (l : Level) : PhysicalAddress := x.slotAddress (x.engine.geometry.levels.idxOf l)

/-- The walk finds a root, reads every entry on its way and comes to the last level. -/
structure ReachesLast : Prop where
  rooted : x.root.isNull = false
  readable : ∀ i ≤ x.stop, x.readable i = true
  last : x.level x.stop = Level.last

variable {x} {visits : List Visit}

theorem walked_sublist (hu : x.engine.geometry.isUsable = true) :
    x.walked.Sublist Level.all := by
  unfold walked
  split
  · exact List.nil_sublist _
  · obtain ⟨k, hk⟩ := reached_eq_take hu
    rw [hk]
    exact (List.take_sublist ..).trans List.filter_sublist

theorem valid_visited (hu : x.engine.geometry.isUsable = true)
    (hv : x.engine.visited x.vaddr x.memory x.root = .ok visits) (pid : Pid) :
    (EntrySet.ofVisits pid x.vaddr visits).valid = .ofLevels x.walked := by
  rw [EntrySet.valid_ofVisits, walked]
  cases hroot : x.root.isNull with
  | true =>
    rw [Engine.visited, hroot] at hv
    cases hv
    rfl
  | false =>
    have houtcome := outcome_visited hu pid
    rw [hv] at houtcome
    by_cases hr : ∀ i ≤ x.stop, x.readable i = true
    · rw [visited_of_readable hu hroot hr] at hv
      cases hv
      rw [reached_eq]
      rfl
    · simp only [Classical.not_forall, Bool.not_eq_true] at hr
      obtain ⟨i, hi, hir⟩ := hr
      obtain ⟨err, herr⟩ := houtcome.fails_iff.mpr ⟨hroot, i, hi, hir⟩
      cases herr

theorem last_mem_reached_iff :
    Level.last ∈ x.reached ↔ x.level x.stop = Level.last := by
  constructor
  · intro h
    rcases List.mem_append.mp h with h | h
    · obtain ⟨i, hi, hl⟩ := List.mem_map.mp h
      exact absurd hl (not_ends_cases (not_ends_of_lt_stop (List.mem_range.mp hi))).1
    · split at h
      · exact (List.mem_singleton.mp h).symm
      · cases h
  · intro h
    have hreaches : x.reachesStop = true := by simp [reachesStop, h]
    rw [reached, if_pos hreaches, h]
    exact List.mem_append_right _ (List.mem_singleton_self _)

theorem reachesLast_iff (hu : x.engine.geometry.isUsable = true) :
    x.ReachesLast ↔ ∃ visits, x.engine.visited x.vaddr x.memory x.root = .ok visits ∧
      Level.last ∈ x.walked := by
  constructor
  · rintro ⟨hroot, hr, hlast⟩
    refine ⟨_, visited_of_readable hu hroot hr, ?_⟩
    rw [walked, hroot]
    exact last_mem_reached_iff.mpr hlast
  · rintro ⟨visits, hv, hmem⟩
    unfold walked at hmem
    split at hmem
    · cases hmem
    · rename_i hroot
      have hroot : x.root.isNull = false := by simpa using hroot
      refine ⟨hroot, ?_, last_mem_reached_iff.mp hmem⟩
      obtain hnil | ⟨hr, _⟩ := visited_ok hu hv
      · -- a walk from a root that reaches a level has visited it
        have hvalid := valid_visited hu hv 0
        rw [hnil] at hvalid
        have hhas : (LevelMask.ofLevels x.walked).has Level.last = true := by
          rw [LevelMask.has_ofLevels, walked, hroot]
          exact decide_eq_true hmem
        rw [← hvalid, EntrySet.valid_ofVisits] at hhas
        cases hhas
      · exact hr

theorem filter_last (hu : x.engine.geometry.isUsable = true) (h : Level.last ∈ x.walked) :
    x.walked.filter (LevelMask.single .pte).has = [.pte] := by
  have hnodup : x.walked.Nodup := (walked_sublist hu).nodup (by decide)
  have hfilter : x.walked.filter (fun l => decide (l ∈ [Level.last])) = [.pte] :=
    filter_mem_sublist (List.singleton_sublist.mpr h) hnodup
  rw [← hfilter]
  apply List.filter_congr
  intro l _
  simp [LevelMask.has_single, Level.last]

theorem slotOf_last (hu : x.engine.geometry.isUsable = true) (h : x.level x.stop = Level.last) :
    x.slotOf Level.last = x.slotAddress x.stop := by
  have hlt := stop_lt hu
  have hidx : x.engine.geometry.levels.idxOf Level.last = x.stop := by
    rw [← h, level_eq_getElem hlt]
    exact (Geometry.nodup_levels _).idxOf_getElem x.stop hlt
  rw [slotOf, hidx]

end Translation

/-! ### Edits of files -/

namespace Memory

variable {m : Memory} {a : PhysicalAddress} {w : Word}

theorem inside?_file {mode : FileMode} (hb : m.backing = .file mode) {start : Nat}
    (h : m.inside? a 8 = some start) : start = a.toNat ∧ a.toNat + 8 ≤ m.bytes.size := by
  obtain ⟨hpos, hle⟩ := inside?_eq_some h
  rw [hb] at hpos
  obtain rfl := Option.some.inj hpos
  exact ⟨rfl, hle⟩

theorem wordAt_of_readWord (hb : m.backing = .file .readWrite) (h : m.readWord a = .ok w) :
    a.toNat + 8 ≤ m.bytes.size ∧ Bytes.wordAt m.bytes a = w := by
  obtain ⟨hz, _⟩ | ⟨hz, start, hin⟩ := inside_of_readWord h
  · rw [hb] at hz
    cases hz
  · obtain ⟨rfl, hle⟩ := inside?_file hb hin
    have hword : m.wordAt a = w := by
      have hread := m.readWord_eq a
      rw [h, readable_iff.mp ⟨w, h⟩] at hread
      exact (Except.ok.inj hread).symm
    simp only [wordAt, if_neg hz, hin] at hword
    exact ⟨hle, hword⟩

end Memory

namespace Translation

variable {x : Translation} {visits : List Visit} {l : Level}

/-- Behind every level that was reached stands a visit to its slot. -/
theorem exists_visit (hu : x.engine.geometry.isUsable = true)
    (hv : x.engine.visited x.vaddr x.memory x.root = .ok visits) (hl : l ∈ x.walked) :
    ∃ v ∈ visits, v.level = l ∧ v.slot = x.slotOf l := by
  have hvalid : (EntrySet.ofVisits 0 x.vaddr visits).valid.has l = true := by
    rw [valid_visited hu hv, LevelMask.has_ofLevels]
    exact decide_eq_true hl
  rw [← Engine.isSome_reached?] at hvalid
  obtain ⟨v, hreached⟩ := Option.isSome_iff_exists.mp hvalid
  obtain ⟨hmem, hlevel, _⟩ := Engine.reached?_eq_some hreached
  obtain ⟨i, _, _, _, hvisit, _, hidx⟩ := reached_visit hu hv hreached
  refine ⟨v, hmem, hlevel, ?_⟩
  rw [slotOf, hidx, hvisit]
  rfl

/-- Over a file, the entry that a walk finds at a level that it reaches is the word at its slot. -/
theorem raw_walked (hu : x.engine.geometry.isUsable = true)
    (hb : x.memory.backing = .file .readWrite)
    (hv : x.engine.visited x.vaddr x.memory x.root = .ok visits) (hl : l ∈ x.walked) (pid : Pid) :
    (x.slotOf l).Aligned ∧ x.memory.Readable (x.slotOf l) ∧
      (EntrySet.ofVisits pid x.vaddr visits).raw l =
        Bytes.wordAt x.memory.bytes (x.slotOf l) := by
  obtain ⟨v, hmem, rfl, hslot⟩ := exists_visit hu hv hl
  have hfaithful := x.engine.faithful_visited x.vaddr hv v hmem
  rw [← hslot]
  refine ⟨hfaithful.aligned, ⟨v.raw, hfaithful.read⟩, ?_⟩
  rw [EntrySet.raw_ofVisits (nodup_visited hu hv) hmem]
  exact (Memory.wordAt_of_readWord hb hfaithful.read).2.symm

end Translation

namespace EntryEdit

variable {x : Translation} {visits : List Visit} {d : EntryEdit} {f : Word → Word}

theorem written_eq_walked (hu : x.engine.geometry.isUsable = true)
    (hv : x.engine.visited x.vaddr x.memory x.root = .ok visits) (pid : Pid) :
    d.written (EntrySet.ofVisits pid x.vaddr visits) = x.walked.filter d.mask.has := by
  have hall : Level.all.filter (fun l => decide (l ∈ x.walked)) = x.walked :=
    filter_mem_sublist (Translation.walked_sublist hu) (by decide)
  have hvalid := Translation.valid_visited hu hv pid
  calc d.written (EntrySet.ofVisits pid x.vaddr visits)
      = Level.all.filter fun l => d.mask.has l && decide (l ∈ x.walked) := by
        unfold written
        apply List.filter_congr
        intro l _
        rw [hvalid, LevelMask.has_ofLevels]
    _ = x.walked.filter d.mask.has := by rw [← List.filter_filter, hall]

/-- The words that an edit of a file stores, if it makes the same of the words at all its slots. -/
theorem storesAt_file (hu : x.engine.geometry.isUsable = true)
    (hb : x.memory.backing = .file .readWrite)
    (hv : x.engine.visited x.vaddr x.memory x.root = .ok visits)
    (hf : ∀ l, d.mask.has l = true → ∀ raw,
      x.engine.arch.encode raw (d.patchFor l) (Geometry.kind l) = f raw) :
    x.engine.storesAt visits d.mask d.patchFor Level.all =
      (x.walked.filter d.mask.has).map fun l =>
        (x.slotOf l, f (Bytes.wordAt x.memory.bytes (x.slotOf l))) := by
  rw [d.storesAt_eq hu hv 0, stores, written_eq_walked hu hv]
  apply List.map_congr_left
  intro l hl
  obtain ⟨hwalked, hmask⟩ := List.mem_filter.mp hl
  rw [hf l hmask, (Translation.raw_walked hu hb hv hwalked 0).2.2]
  rfl

/-- An edit of a file that is not refused rewrites the words at the slots of the levels that are
selected and reached. -/
theorem rewritten_file (hu : x.engine.geometry.isUsable = true)
    (hb : x.memory.backing = .file .readWrite)
    (hv : x.engine.visited x.vaddr x.memory x.root = .ok visits)
    (hw : (Memory.writeWords (x.engine.storesAt visits d.mask d.patchFor Level.all)
      x.memory).1 = none)
    (hf : ∀ l, d.mask.has l = true → ∀ raw,
      x.engine.arch.encode raw (d.patchFor l) (Geometry.kind l) = f raw) :
    Bytes.Rewritten x.memory.bytes
      (Memory.writeWords (x.engine.storesAt visits d.mask d.patchFor Level.all)
        x.memory).2.bytes ((x.walked.filter d.mask.has).map x.slotOf) f := by
  have heff := d.effected hu hv 0 hw
  have hstores := storesAt_file hu hb hv hf
  have hslots : ∀ a ∈ (x.walked.filter d.mask.has).map x.slotOf,
      a.Aligned ∧ x.memory.Readable a := by
    intro a ha
    obtain ⟨l, hl, rfl⟩ := List.mem_map.mp ha
    obtain ⟨haligned, hread, _⟩ := Translation.raw_walked hu hb hv (List.mem_filter.mp hl).1 0
    exact ⟨haligned, hread⟩
  have hz : x.memory.backing ≠ .file .zeros := by simp [hb]
  generalize hafter : (Memory.writeWords
    (x.engine.storesAt visits d.mask d.patchFor Level.all) x.memory).2 = after at heff ⊢
  constructor
  case inside =>
    intro a ha
    obtain ⟨w, hread⟩ := (hslots a ha).2
    exact (Memory.wordAt_of_readWord hb hread).1
  case size_eq => exact heff.size_eq
  case words =>
    intro a ha
    obtain ⟨haligned, hread⟩ := hslots a ha
    obtain ⟨l, hl, rfl⟩ := List.mem_map.mp ha
    have hback : after.backing = .file .readWrite := by
      rw [heff.memory_eq, Memory.backing_preload, hb]
    -- levels that share a slot store the same word there
    have hlast : Memory.lastStore? (x.engine.storesAt visits d.mask d.patchFor Level.all)
        (x.slotOf l) = some (f (Bytes.wordAt x.memory.bytes (x.slotOf l))) := by
      rw [hstores]
      apply Memory.lastStore?_eq_some
      · exact List.mem_map.mpr ⟨l, hl, rfl⟩
      · rintro s hs hslot
        obtain ⟨k, _, rfl⟩ := List.mem_map.mp hs
        rw [← hslot]
    have hafterread : after.readWord (x.slotOf l) =
        .ok (f (Bytes.wordAt x.memory.bytes (x.slotOf l))) := by
      rw [← hafter, Memory.readWord_writeWords _ _ ?_ hw haligned, hlast]
      intro s hs
      rw [hstores] at hs
      obtain ⟨k, hk, rfl⟩ := List.mem_map.mp hs
      obtain ⟨haligned, hread⟩ := hslots _ (List.mem_map_of_mem hk)
      exact ⟨hz, hread, haligned⟩
    exact (Memory.wordAt_of_readWord hback hafterread).2
  case others =>
    intro p hp
    apply heff.untouched
    intro s hs
    rw [← d.storesAt_eq hu hv 0, hstores] at hs
    obtain ⟨l, hl, rfl⟩ := List.mem_map.mp hs
    have hout := hp _ (List.mem_map_of_mem hl)
    unfold Memory.covers
    cases hin : x.memory.inside? (x.slotOf l) 8 with
    | none => rfl
    | some start =>
      obtain ⟨rfl, _⟩ := Memory.inside?_file hb hin
      simp only [Option.any_some, Bool.and_eq_false_iff, decide_eq_false_iff_not]
      omega

/-- Where no level is selected and reached, nothing is written. -/
theorem writeWords_of_nothing (hu : x.engine.geometry.isUsable = true)
    (hv : x.engine.visited x.vaddr x.memory x.root = .ok visits)
    (hnil : x.walked.filter d.mask.has = []) :
    (Memory.writeWords (x.engine.storesAt visits d.mask d.patchFor Level.all) x.memory).2 =
      x.memory := by
  rw [d.storesAt_eq hu hv 0, stores, written_eq_walked hu hv, hnil]
  rfl

end EntryEdit

end Paging
