import Paging.Proofs.Decoding
import Paging.Proofs.Layout
import Paging.Proofs.Recording
import Paging.Proofs.Walking

/-!
# Translation as it is specified

The translation of an address is specified through numbers alone: with the tables, slots and entries
of the present levels as sequences, each got from the one before by division, remainder and the
decoder (`Translation.table`, `slot`, `raw`), and the first level at which it ends
(`Translation.stop`). A walk visits exactly the levels up to there (`visited_of_readable`), so that
resolving an address reports what the specification says (`resolve_translates`).
-/

namespace Paging

/-- A translation to be made: of an address, by the tables in a memory under a root. -/
structure Translation where
  engine : Engine
  memory : Memory
  root : PhysicalAddress
  vaddr : VirtualAddress

namespace Translation

variable (x : Translation)

/-- The present levels, root first. -/
def level (i : Nat) : Level := x.engine.geometry.levels.getD i Level.last

/-- Where a table at the `i`-th level keeps the entry for the address. -/
def slotIn (table i : Nat) : Nat :=
  table + 8 * (x.vaddr.toNat / 2 ^ x.engine.geometry.shift (x.level i) %
    2 ^ x.engine.geometry.width (x.level i))

def word? (address : Nat) : Option Word := (x.memory.readWord ⟨UInt64.ofNat address⟩).toOption

/-- An entry of a directory as it decodes; one that cannot be read counts as zero. -/
def entryAt (address : Nat) : EntryView :=
  x.engine.arch.view .directory ((x.word? address).getD 0)

/-- Where the table of the `i`-th level begins. -/
def table : Nat → Nat
  | 0 => (x.engine.arch.rootTable x.root).toNat
  | i + 1 => 4096 * (x.entryAt (x.slotIn (table i) i)).pfn.toNat

def slot (i : Nat) : Nat := x.slotIn (x.table i) i

def slotAddress (i : Nat) : PhysicalAddress := ⟨UInt64.ofNat (x.slot i)⟩

def readable (i : Nat) : Bool := (x.word? (x.slot i)).isSome

def raw (i : Nat) : Word := (x.word? (x.slot i)).getD 0

def entry (i : Nat) : EntryView := x.entryAt (x.slot i)

/-- Translation goes no deeper than the `i`-th level. -/
def ends (i : Nat) : Bool := x.level i == Level.last || !(x.entry i).present || (x.entry i).leaf

/-- The first level at which it ends. -/
def stop : Nat := (List.range x.engine.geometry.levels.length).findIdx x.ends

/-- The level at which it ends is itself reached. -/
def reachesStop : Bool := x.level x.stop == Level.last || (x.entry x.stop).present

/-- The levels that are reached, root first. -/
def reached : List Level :=
  (List.range x.stop).map x.level ++ if x.reachesStop then [x.level x.stop] else []

structure Reported (pid : Pid) (set : EntrySet) : Prop where
  pid_eq : set.pid = pid
  vaddr_eq : set.vaddr = x.vaddr
  raw_level : ∀ i ≤ x.stop, set.raw (x.level i) = x.raw i
  raw_other : ∀ l, (∀ i ≤ x.stop, x.level i ≠ l) → set.raw l = 0
  valid_eq : set.valid = .ofLevels x.reached
  valid_prefix : ∃ k, set.valid.levels = x.engine.geometry.levels.take k

structure Outcome (pid : Pid) (r : Except Error EntrySet) : Prop where
  rootless : x.root.isNull = true → r = .ok (.empty pid x.vaddr)
  report : x.root.isNull = false → (∀ i ≤ x.stop, x.readable i = true) →
    ∃ set, r = .ok set ∧ x.Reported pid set
  failure : x.root.isNull = false → ∀ i ≤ x.stop, (∀ j < i, x.readable j = true) →
    x.readable i = false → r = .error (.physicalAccess (x.slotAddress i))
  fails_iff : (∃ err, r = .error err) ↔
    x.root.isNull = false ∧ ∃ i ≤ x.stop, x.readable i = false

/-- The visit that a walk pays to the `i`-th level. -/
def visit (i : Nat) : Visit :=
  ⟨x.level i, x.slotAddress i, x.raw i, x.level i == Level.last || (x.entry i).present⟩

/-! ### Where it ends -/

variable {x}

theorem level_eq_getElem {i : Nat} (hi : i < x.engine.geometry.levels.length) :
    x.level i = x.engine.geometry.levels[i] := by
  simp [level, hi]

theorem ends_last (hu : x.engine.geometry.isUsable = true) :
    x.ends (x.engine.geometry.levels.length - 1) = true := by
  have hpos := Geometry.length_levels_pos hu
  have hi : x.engine.geometry.levels.length - 1 < x.engine.geometry.levels.length := by omega
  have hlast := (Geometry.getElem_levels_eq_last hu hi).mpr (by omega)
  simp [ends, level_eq_getElem hi, hlast]

theorem stop_lt (hu : x.engine.geometry.isUsable = true) :
    x.stop < x.engine.geometry.levels.length := by
  have hpos := Geometry.length_levels_pos hu
  have hex : ∃ i ∈ List.range x.engine.geometry.levels.length, x.ends i = true :=
    ⟨x.engine.geometry.levels.length - 1, List.mem_range.mpr (by omega), ends_last hu⟩
  have h := List.findIdx_lt_length_of_exists hex
  rwa [List.length_range] at h

theorem ends_stop (hu : x.engine.geometry.isUsable = true) : x.ends x.stop = true := by
  have hlt : x.stop < (List.range x.engine.geometry.levels.length).length := by
    rw [List.length_range]
    exact stop_lt hu
  have h : x.ends (List.range x.engine.geometry.levels.length)[x.stop] = true :=
    List.findIdx_getElem
  rwa [List.getElem_range] at h

theorem not_ends_of_lt_stop {i : Nat} (hi : i < x.stop) : x.ends i = false := by
  have h := List.not_of_lt_findIdx hi
  rw [List.getElem_range] at h
  simpa using h

theorem not_ends_cases {i : Nat} (h : x.ends i = false) :
    x.level i ≠ Level.last ∧ (x.entry i).present = true ∧ (x.entry i).leaf = false := by
  simp only [ends, Bool.or_eq_false_iff, beq_eq_false_iff_ne, Bool.not_eq_false'] at h
  exact ⟨h.1.1, h.1.2, h.2⟩

/-! ### Slots -/

theorem entry_eq (i : Nat) : x.entry i = x.engine.arch.view .directory (x.raw i) := rfl

theorem toNat_tableAddress_raw {i : Nat} (h : x.ends i = false) :
    (x.engine.arch.tableAddress (x.raw i)).toNat = x.table (i + 1) := by
  obtain ⟨_, hp, hl⟩ := not_ends_cases h
  exact Architecture.toNat_tableAddress hp hl

theorem index_eq (l : Level) :
    x.engine.geometry.index x.vaddr l =
      x.vaddr.toNat / 2 ^ x.engine.geometry.shift l % 2 ^ x.engine.geometry.width l := rfl

theorem slotAddress_eq (hu : x.engine.geometry.isUsable = true) {a : PhysicalAddress} {i : Nat}
    (ha : Architecture.HoldsTable a) (hat : a.toNat = x.table i) :
    x.engine.slotAddress a x.vaddr (x.level i) = x.slotAddress i := by
  have hidx := Geometry.index_lt x.engine.geometry x.vaddr (x.level i)
  have hpow := Geometry.two_pow_width_le hu (x.level i)
  have hlt : x.slot i < 2 ^ 64 := by
    have h60 := ha.2
    rw [index_eq] at hidx
    simp only [slot, slotIn]
    omega
  have hword : a.word + UInt64.ofNat (x.engine.geometry.index x.vaddr (x.level i) * entrySize) =
      UInt64.ofNat (x.slot i) := by
    apply UInt64.toNat_inj.mp
    have hnat : a.word.toNat = x.table i := hat
    have hoff : x.engine.geometry.index x.vaddr (x.level i) * entrySize < 2 ^ 64 := by
      simp only [entrySize]
      omega
    rw [UInt64.toNat_add, UInt64.toNat_ofNat', UInt64.toNat_ofNat', Nat.mod_eq_of_lt hoff,
      Nat.mod_eq_of_lt hlt, hnat]
    have hslot : x.table i + x.engine.geometry.index x.vaddr (x.level i) * entrySize =
        x.slot i := by
      rw [index_eq, Nat.mul_comm]
      rfl
    rw [hslot, Nat.mod_eq_of_lt hlt]
  show (⟨_⟩ : PhysicalAddress) = ⟨_⟩
  rw [hword]

theorem readWord_of_readable {i : Nat} (h : x.readable i = true) :
    x.memory.readWord (x.slotAddress i) = .ok (x.raw i) := by
  unfold readable word? at h
  unfold raw word?
  cases hw : x.memory.readWord ⟨UInt64.ofNat (x.slot i)⟩ with
  | error r =>
    rw [hw] at h
    cases h
  | ok w => exact hw

theorem readWord_of_unreadable {i : Nat} (h : x.readable i = false) :
    ∃ r, x.memory.readWord (x.slotAddress i) = .error r := by
  unfold readable word? at h
  cases hw : x.memory.readWord ⟨UInt64.ofNat (x.slot i)⟩ with
  | error r => exact ⟨r, hw⟩
  | ok w =>
    rw [hw] at h
    cases h

/-! ### One level of the walk -/

variable {a : PhysicalAddress} {i : Nat}

theorem drop_levels (hi : i < x.engine.geometry.levels.length) :
    x.engine.geometry.levels.drop i = x.level i :: x.engine.geometry.levels.drop (i + 1) := by
  rw [level_eq_getElem hi]
  exact List.drop_eq_getElem_cons hi

theorem descent_unreadable (hu : x.engine.geometry.isUsable = true)
    (hi : i < x.engine.geometry.levels.length) (ha : Architecture.HoldsTable a)
    (hat : a.toNat = x.table i) (h : x.readable i = false) :
    x.engine.descent x.vaddr x.memory (x.engine.geometry.levels.drop i) a =
      .error (.physicalAccess (x.slotAddress i)) := by
  obtain ⟨r, hr⟩ := readWord_of_unreadable h
  rw [drop_levels hi]
  simp only [Engine.descent, slotAddress_eq hu ha hat, hr]

theorem isPresent_raw (h : x.level i ≠ Level.last) :
    x.engine.arch.isPresent (Geometry.kind (x.level i)) (x.raw i) = (x.entry i).present := by
  rw [Geometry.kind, if_neg h, Architecture.isPresent_eq_view]
  rfl

theorem descent_ends (hu : x.engine.geometry.isUsable = true)
    (hi : i < x.engine.geometry.levels.length) (ha : Architecture.HoldsTable a)
    (hat : a.toNat = x.table i) (h : x.readable i = true) (hends : x.ends i = true) :
    x.engine.descent x.vaddr x.memory (x.engine.geometry.levels.drop i) a = .ok [x.visit i] := by
  rw [drop_levels hi]
  simp only [Engine.descent, slotAddress_eq hu ha hat, readWord_of_readable h]
  by_cases hl : x.level i = Level.last
  · simp [hl, visit]
  · have hkind := isPresent_raw hl
    have hne : (x.level i == Level.last) = false := by simpa using hl
    simp only [ends, hne, Bool.false_or] at hends
    simp only [hkind, hne, Bool.false_or, Bool.or_false, visit]
    cases hp : (x.entry i).present with
    | false => simp
    | true =>
      have hleaf : (x.entry i).leaf = true := by simpa [hp] using hends
      have hhuge : x.engine.arch.isHuge (x.raw i) = true :=
        (Architecture.isHuge_eq_leaf hp).trans hleaf
      simp [hhuge]

theorem descent_goes_on (hu : x.engine.geometry.isUsable = true)
    (hi : i < x.engine.geometry.levels.length) (ha : Architecture.HoldsTable a)
    (hat : a.toNat = x.table i) (h : x.readable i = true) (hends : x.ends i = false) :
    x.engine.descent x.vaddr x.memory (x.engine.geometry.levels.drop i) a =
      (x.engine.descent x.vaddr x.memory (x.engine.geometry.levels.drop (i + 1))
        (x.engine.arch.tableAddress (x.raw i))).map (x.visit i :: ·) := by
  obtain ⟨hl, hp, hleaf⟩ := not_ends_cases hends
  have hkind := isPresent_raw hl
  have hne : (x.level i == Level.last) = false := by simpa using hl
  have hhuge : x.engine.arch.isHuge (x.raw i) = false :=
    (Architecture.isHuge_eq_leaf hp).trans hleaf
  rw [drop_levels hi]
  simp only [Engine.descent, slotAddress_eq hu ha hat, readWord_of_readable h, hkind, hne, hp,
    hhuge, visit]
  rfl

/-! ### The whole walk -/

/-- From any level on, if every slot down to the end can be read. The induction is on how far away
the end is; the table of the next level is the one that the entry just visited points at. -/
theorem descent_report (hu : x.engine.geometry.isUsable = true) (d : Nat) {i : Nat}
    {a : PhysicalAddress} (hd : i + d = x.stop) (ha : Architecture.HoldsTable a)
    (hat : a.toNat = x.table i) (hr : ∀ j, i ≤ j → j ≤ x.stop → x.readable j = true) :
    x.engine.descent x.vaddr x.memory (x.engine.geometry.levels.drop i) a =
      .ok ((List.range' i (d + 1)).map x.visit) := by
  have hlt := stop_lt hu
  induction d generalizing i a with
  | zero =>
    have hi : i = x.stop := by omega
    have hends : x.ends i = true := hi ▸ ends_stop hu
    exact descent_ends hu (by omega) ha hat (hr i (Nat.le_refl i) (by omega)) hends
  | succ d ih =>
    have hends : x.ends i = false := not_ends_of_lt_stop (by omega)
    have hnext := ih (by omega) (Architecture.holdsTable_tableAddress x.engine.arch (x.raw i))
      (toNat_tableAddress_raw hends) fun j hj => hr j (by omega)
    rw [descent_goes_on hu (by omega) ha hat (hr i (Nat.le_refl i) (by omega)) hends, hnext]
    rfl

/-- From any level on, if a slot before the end is the first that cannot be read. -/
theorem descent_failure (hu : x.engine.geometry.isUsable = true) (d : Nat) {i k : Nat}
    {a : PhysicalAddress} (hd : i + d = k) (hk : k ≤ x.stop) (ha : Architecture.HoldsTable a)
    (hat : a.toNat = x.table i) (hr : ∀ j, i ≤ j → j < k → x.readable j = true)
    (hkr : x.readable k = false) :
    x.engine.descent x.vaddr x.memory (x.engine.geometry.levels.drop i) a =
      .error (.physicalAccess (x.slotAddress k)) := by
  have hlt := stop_lt hu
  induction d generalizing i a with
  | zero =>
    have hi : i = k := by omega
    subst hi
    exact descent_unreadable hu (by omega) ha hat hkr
  | succ d ih =>
    have hends : x.ends i = false := not_ends_of_lt_stop (by omega)
    have hnext := ih (by omega) (Architecture.holdsTable_tableAddress x.engine.arch (x.raw i))
      (toNat_tableAddress_raw hends) fun j hj => hr j (by omega)
    rw [descent_goes_on hu (by omega) ha hat (hr i (Nat.le_refl i) (by omega)) hends, hnext]
    rfl

def path (x : Translation) : List Visit := (List.range (x.stop + 1)).map x.visit

theorem visited_of_readable (hu : x.engine.geometry.isUsable = true)
    (hroot : x.root.isNull = false) (hr : ∀ i ≤ x.stop, x.readable i = true) :
    x.engine.visited x.vaddr x.memory x.root = .ok x.path := by
  have h := descent_report hu x.stop (Nat.zero_add _)
    (Architecture.holdsTable_rootTable x.engine.arch x.root) rfl fun j _ hj => hr j hj
  rw [Engine.visited, hroot, path, List.range_eq_range']
  exact h

theorem visited_of_unreadable (hu : x.engine.geometry.isUsable = true)
    (hroot : x.root.isNull = false) {i : Nat} (hi : i ≤ x.stop)
    (hr : ∀ j < i, x.readable j = true) (hir : x.readable i = false) :
    x.engine.visited x.vaddr x.memory x.root = .error (.physicalAccess (x.slotAddress i)) := by
  have h := descent_failure hu i (Nat.zero_add _) hi
    (Architecture.holdsTable_rootTable x.engine.arch x.root) rfl (fun j _ hj => hr j hj) hir
  rw [Engine.visited, hroot]
  exact h

/-! ### What is reported of it -/

theorem map_level_range {n : Nat} (hn : n ≤ x.engine.geometry.levels.length) :
    (List.range n).map x.level = x.engine.geometry.levels.take n := by
  apply List.ext_getElem
  · simp [hn]
  · intro i h1 h2
    have hi : i < n := by simpa using h1
    rw [List.getElem_map, List.getElem_range, List.getElem_take, level_eq_getElem (by omega)]

theorem map_level_path (hu : x.engine.geometry.isUsable = true) :
    x.path.map Visit.level = x.engine.geometry.levels.take (x.stop + 1) := by
  have hlt := stop_lt hu
  rw [← map_level_range (by omega), path, List.map_map]
  rfl

theorem nodup_path (hu : x.engine.geometry.isUsable = true) :
    (x.path.map Visit.level).Nodup := by
  rw [map_level_path hu]
  exact List.Sublist.nodup (List.take_sublist ..) (Geometry.nodup_levels _)

theorem visit_mem_path {i : Nat} (hi : i ≤ x.stop) : x.visit i ∈ x.path :=
  List.mem_map_of_mem (List.mem_range.mpr (by omega))

theorem valid_visit_of_lt_stop {i : Nat} (hi : i < x.stop) : (x.visit i).valid = true := by
  obtain ⟨_, hp, _⟩ := not_ends_cases (not_ends_of_lt_stop hi)
  simp [visit, hp]

theorem reached_eq (x : Translation) : (x.path.filter Visit.valid).map Visit.level = x.reached := by
  have hinit : ((List.range x.stop).map x.visit).filter Visit.valid =
      (List.range x.stop).map x.visit := by
    apply List.filter_eq_self.mpr
    intro v hv
    obtain ⟨i, hi, rfl⟩ := List.mem_map.mp hv
    exact valid_visit_of_lt_stop (List.mem_range.mp hi)
  have hlast : (x.visit x.stop).valid = x.reachesStop := rfl
  rw [path, List.range_succ, List.map_append, List.filter_append, hinit, List.map_append,
    List.map_map, reached]
  congr 1
  cases h : x.reachesStop with
  | true =>
    rw [List.map_singleton, List.filter_cons_of_pos (hlast.trans h)]
    rfl
  | false =>
    rw [List.map_singleton, List.filter_cons_of_neg (by simp [hlast, h])]
    rfl

theorem reached_eq_take (hu : x.engine.geometry.isUsable = true) :
    ∃ k, x.reached = x.engine.geometry.levels.take k := by
  have hlt := stop_lt hu
  cases h : x.reachesStop with
  | true =>
    refine ⟨x.stop + 1, ?_⟩
    rw [← map_level_range (by omega), List.range_succ, List.map_append]
    simp [reached, h]
  | false =>
    refine ⟨x.stop, ?_⟩
    rw [← map_level_range (by omega)]
    simp [reached, h]

theorem reported_path (hu : x.engine.geometry.isUsable = true) (pid : Pid) :
    x.Reported pid (.ofVisits pid x.vaddr x.path) where
  pid_eq := EntrySet.pid_ofVisits _
  vaddr_eq := EntrySet.vaddr_ofVisits _
  raw_level i hi := EntrySet.raw_ofVisits (nodup_path hu) (visit_mem_path hi)
  raw_other l hl := by
    apply EntrySet.raw_ofVisits_of_not_mem
    intro v hv
    obtain ⟨i, hi, rfl⟩ := List.mem_map.mp hv
    exact hl i (Nat.le_of_lt_succ (List.mem_range.mp hi))
  valid_eq := by rw [EntrySet.valid_ofVisits, reached_eq]
  valid_prefix := by
    obtain ⟨k, hk⟩ := reached_eq_take hu
    have hsub : (x.engine.geometry.levels.take k).Sublist Level.all :=
      (List.take_sublist ..).trans List.filter_sublist
    refine ⟨k, ?_⟩
    rw [EntrySet.valid_ofVisits, reached_eq, hk, LevelMask.levels_ofLevels hsub]

theorem exists_first_unreadable {i : Nat} (h : x.readable i = false) :
    ∃ k ≤ i, (∀ j < k, x.readable j = true) ∧ x.readable k = false := by
  induction i using Nat.strongRecOn with
  | ind i ih =>
    by_cases hall : ∀ j < i, x.readable j = true
    · exact ⟨i, Nat.le_refl i, hall, h⟩
    · simp only [Classical.not_forall, Bool.not_eq_true] at hall
      obtain ⟨j, hj, hjr⟩ := hall
      obtain ⟨k, hk, hrest⟩ := ih j hj hjr
      exact ⟨k, by omega, hrest⟩

/-- What the engine answers is what is to come of the translation. -/
theorem outcome_visited (hu : x.engine.geometry.isUsable = true) (pid : Pid) :
    x.Outcome pid
      ((x.engine.visited x.vaddr x.memory x.root).map (EntrySet.ofVisits pid x.vaddr)) where
  rootless hroot := by
    rw [Engine.visited, hroot]
    rfl
  report hroot hr := by
    rw [visited_of_readable hu hroot hr]
    exact ⟨_, rfl, reported_path hu pid⟩
  failure hroot i hi hr hir := by
    rw [visited_of_unreadable hu hroot hi hr hir]
    rfl
  fails_iff := by
    constructor
    · rintro ⟨err, herr⟩
      cases hroot : x.root.isNull with
      | true =>
        rw [Engine.visited, hroot] at herr
        cases herr
      | false =>
        refine ⟨rfl, ?_⟩
        -- were every slot readable, there would be a report
        by_cases hr : ∀ i ≤ x.stop, x.readable i = true
        · rw [visited_of_readable hu hroot hr] at herr
          cases herr
        · simp only [Classical.not_forall, Bool.not_eq_true] at hr
          obtain ⟨i, hi, hir⟩ := hr
          exact ⟨i, hi, hir⟩
    · rintro ⟨hroot, i, hi, hir⟩
      obtain ⟨k, hk, hr, hkr⟩ := exists_first_unreadable hir
      rw [visited_of_unreadable hu hroot (by omega) hr hkr]
      exact ⟨_, rfl⟩

end Translation

/-- Resolving an address in a process that can be entered comes to what the translation under the
root stored there comes to, and changes at most who holds the process. -/
theorem Engine.resolve_translates {e : Engine} (hg : e.geometry.Constructed) {others : Bystander}
    (ho : others.Honest) {m : Machine} {pid : Pid} {space : SpaceId}
    (hen : m.locks.Enterable others pid space) (vaddr : VirtualAddress) :
    ∃ es locks r, (e.resolve vaddr pid).runOn others m =
        some ⟨es, { m with locks := locks }, r⟩ ∧
      (⟨e, m.memory, m.locks.root space, vaddr⟩ : Translation).Outcome pid r := by
  obtain ⟨held, hgr⟩ := LockTable.grants_of_enterable hen
  obtain ⟨es, hrun⟩ := e.runOn_resolve vaddr others hgr
  rw [LockTable.root_of_enterable ho hen hgr] at hrun
  let x : Translation := ⟨e, m.memory, m.locks.root space, vaddr⟩
  have hu : x.engine.geometry.isUsable = true := hg.isUsable
  exact ⟨es, _, _, hrun, Translation.outcome_visited hu pid⟩

/-! ### A table that maps itself -/

/-- The smallest hierarchy: two levels of two entries each over pages of 16 bytes. -/
def Geometry.smallest : Geometry := ⟨4, ⟨some 1, none, none, none, some 1⟩⟩

theorem Geometry.constructed_smallest : smallest.Constructed :=
  .widths (rfl : ofWidths 4 [1, 1] = .ok smallest)

/-- Process 1 has a space of its own, which nobody holds. Its only table, at 0x1000, is its own
child through the first of its two entries. -/
def Machine.selfMapped : Machine where
  locks := (LockTable.empty.insertProcess 1 ⟨0x1000⟩).2
  memory := ⟨.window 0x1000, (Bytes.ofWord 0x1001 ++ Bytes.ofWord 0).toArray⟩
  tlb := .custom
  register := none

theorem Machine.enterable_selfMapped :
    selfMapped.locks.Enterable Bystander.yielding 1 0 :=
  .free rfl rfl rfl

theorem Engine.resolve_translates_selfMapped :
    Geometry.smallest.Constructed ∧ Bystander.yielding.Honest ∧
      Machine.selfMapped.locks.Enterable Bystander.yielding 1 0 ∧
      ∃ es locks r,
        ((⟨.x86_64, .smallest⟩ : Engine).resolve ⟨0x10⟩ 1).runOn .yielding Machine.selfMapped =
          some ⟨es, { Machine.selfMapped with locks := locks }, r⟩ ∧
        (⟨⟨.x86_64, .smallest⟩, Machine.selfMapped.memory, ⟨0x1000⟩, ⟨0x10⟩⟩ : Translation).Outcome
          1 r :=
  ⟨Geometry.constructed_smallest, Bystander.honest_yielding, Machine.enterable_selfMapped,
    Engine.resolve_translates Geometry.constructed_smallest Bystander.honest_yielding
      Machine.enterable_selfMapped ⟨0x10⟩⟩

end Paging
