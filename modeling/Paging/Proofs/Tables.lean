import Paging.Proofs.Courses
import Paging.Proofs.Slots

/-!
# Entries inside their tables

Whatever a root or an entry holds, the table it leads to sits at a multiple of 4096 that is so far
from the end of the address space that no slot of it is computed with a wrapping sum
(`Engine.toNat_slotAddress`). All words that a walk or an edit accesses are slots of such tables
(`Engine.Sited`), whatever is replied to it in between. So they are aligned, and no memory ever
refuses one of them for its alignment.
-/

namespace Paging

/-! ### Roots -/

theorem BitField.get_shiftLeft_get {f : BitField} (hf : f.Fits) (w : Word) :
    f.get (f.get w <<< UInt64.ofNat f.low) = f.get w := by
  apply Word.ext_bit
  intro i hi
  have hfits := hf.2
  rw [bit_get hf, Word.bit_shiftLeft _ hf.1, Nat.add_sub_cancel_left, bit_get hf]
  grind

/-- A root that was decoded, a satp value of RISC-V among them, is the address of its table. -/
theorem Architecture.rootTable_rootTable (arch : Architecture) (root : PhysicalAddress) :
    arch.rootTable (arch.rootTable root) = arch.rootTable root := by
  cases arch with
  | x86_64 =>
    exact congrArg frameAddress
      (BitField.get_shiftLeft_get (f := X86.addressField) ⟨by decide, by decide⟩ root.word)
  | aarch64 =>
    exact congrArg frameAddress
      (BitField.get_shiftLeft_get (f := Arm.addressField) ⟨by decide, by decide⟩ root.word)
  | riscv64 variant =>
    obtain ⟨hmultiple, hlt⟩ := holdsTable_rootTable (.riscv64 variant) root
    generalize Architecture.rootTable (.riscv64 variant) root = table at hmultiple hlt
    have hmode : (⟨60, 4⟩ : BitField).get table.word = 0 := by
      apply Word.ext_bit
      intro i _
      rw [BitField.bit_get ⟨by decide, by decide⟩, Word.bit_zero, Word.bit_eq_testBit]
      have hpow : 2 ^ 60 ≤ 2 ^ (60 + i) := Nat.pow_le_pow_right (by decide) (Nat.le_add_right ..)
      have habove : table.word.toNat.testBit (60 + i) = false :=
        Nat.testBit_lt_two_pow (Nat.lt_of_lt_of_le hlt hpow)
      rw [habove, Bool.and_false]
    have hframe : (table.word >>> 12).toNat = table.toNat / 4096 := by
      rw [UInt64.toNat_shiftRight]
      exact Nat.shiftRight_eq_div_pow ..
    have hvalue : (frameAddress (table.word >>> 12)).toNat = 4096 * (table.word >>> 12).toNat :=
      toNat_frameAddress (by omega)
    simp only [rootTable, Riscv.rootFrame, hmode, beq_self_eq_true, if_true]
    have hnat : (frameAddress (table.word >>> 12)).toNat = table.toNat := by omega
    obtain ⟨w⟩ := table
    exact congrArg _ (UInt64.toNat_inj.mp hnat)

example : Architecture.rootTable (.riscv64 .standard) ⟨0x8000000000080000⟩ = ⟨0x80000000⟩ ∧
    Architecture.rootTable (.riscv64 .standard) ⟨0x80000000⟩ = ⟨0x80000000⟩ := by
  decide

namespace Engine

variable (e : Engine) (vaddr : VirtualAddress)

/-! ### Slots -/

/-- As a sum of numbers: nothing wraps. -/
theorem toNat_slotAddress (hu : e.geometry.isUsable = true) {table : PhysicalAddress}
    (h : Architecture.HoldsTable table) (l : Level) :
    (e.slotAddress table vaddr l).toNat = table.toNat + 8 * e.geometry.index vaddr l := by
  have hindex := Geometry.index_lt e.geometry vaddr l
  have hwidth : 2 ^ e.geometry.width l ≤ 2 ^ 16 := Geometry.two_pow_width_le hu l
  have hlt := h.2
  have hsum : (e.slotAddress table vaddr l).toNat =
      (table.toNat + e.geometry.index vaddr l * 8 % 2 ^ 64) % 2 ^ 64 := by
    show (table.word + UInt64.ofNat (e.geometry.index vaddr l * entrySize)).toNat = _
    rw [UInt64.toNat_add, UInt64.toNat_ofNat']
    rfl
  omega

/-- Where the slots of a table are. -/
structure Room (table : PhysicalAddress) (l : Level) : Prop where
  multiple : table.toNat % 4096 = 0
  slot_eq : (e.slotAddress table vaddr l).toNat = table.toNat + 8 * e.geometry.index vaddr l
  slot_ge : table.toNat ≤ (e.slotAddress table vaddr l).toNat
  slot_lt : (e.slotAddress table vaddr l).toNat < table.toNat + 8 * 2 ^ e.geometry.width l
  aligned : (e.slotAddress table vaddr l).toNat % 8 = 0

theorem room_of_holdsTable (hu : e.geometry.isUsable = true) {table : PhysicalAddress}
    (h : Architecture.HoldsTable table) (l : Level) : e.Room vaddr table l := by
  have hslot := e.toNat_slotAddress vaddr hu h l
  have hindex := Geometry.index_lt e.geometry vaddr l
  obtain ⟨hmultiple, _⟩ := h
  constructor
  case multiple => exact hmultiple
  case slot_eq => exact hslot
  all_goals omega

end Engine

/-! ### What a trace shows of tables -/

namespace Performed

/-- The words written, those included that could not be. -/
def wordsWritten (trace : List Performed) : List PhysicalAddress :=
  trace.filterMap fun
    | acted (.writeWord a _) _ => some a
    | _ => none

/-- The tables that what was read leads to: from a root to the root table, from an entry to the next
table. -/
def tables (arch : Architecture) (trace : List Performed) : List PhysicalAddress :=
  trace.filterMap fun
    | acted (.readRoot _) root => some (arch.rootTable root)
    | acted (.readWord _) (.ok raw) => some (arch.tableAddress raw)
    | _ => none

theorem wordsWritten_append (s t : List Performed) :
    wordsWritten (s ++ t) = wordsWritten s ++ wordsWritten t := List.filterMap_append ..

theorem tables_append (arch : Architecture) (s t : List Performed) :
    tables arch (s ++ t) = tables arch s ++ tables arch t := List.filterMap_append ..

theorem holdsTable_tables {arch : Architecture} {trace : List Performed} {table : PhysicalAddress}
    (h : table ∈ tables arch trace) : Architecture.HoldsTable table := by
  obtain ⟨x, _, hx⟩ := List.mem_filterMap.mp h
  split at hx
  · cases hx
    exact arch.holdsTable_rootTable _
  · cases hx
    exact arch.holdsTable_tableAddress _
  · cases hx

/-- Entering a space and giving it back accesses no words. -/
theorem wordsRead_held (pid : Pid) (reply : Except Error SpaceId) (t : List Performed) :
    wordsRead (.entered pid reply :: t ++ [.acted (.release pid) ()]) = wordsRead t := by
  simp [wordsRead]

theorem tables_held (arch : Architecture) (pid : Pid) (reply : Except Error SpaceId)
    (t : List Performed) :
    tables arch (.entered pid reply :: t ++ [.acted (.release pid) ()]) = tables arch t := by
  simp [tables]

/-- Writes no words but those given and reads nothing. -/
def writesOnly (slots : List PhysicalAddress) : Performed → Bool
  | acted (.writeWord a _) _ => slots.contains a
  | acted (.note _) _ => true
  | _ => false

variable {slots : List PhysicalAddress} {trace : List Performed}

theorem wordsRead_of_writesOnly (h : ∀ x ∈ trace, x.writesOnly slots = true) :
    wordsRead trace = [] := by
  refine List.filterMap_eq_nil_iff.mpr fun x hx => ?_
  have hx := h x hx
  unfold writesOnly at hx
  split at hx <;> first | rfl | cases hx

theorem wordsWritten_of_writesOnly (h : ∀ x ∈ trace, x.writesOnly slots = true) :
    wordsWritten trace ⊆ slots := by
  intro a ha
  obtain ⟨x, hmem, hx⟩ := List.mem_filterMap.mp ha
  have hwrites := h x hmem
  split at hx
  · cases hx
    exact List.contains_iff_mem.mp hwrites
  · cases hx

/-- A walk writes no words. -/
theorem wordsWritten_of_isLook (h : ∀ x ∈ trace, x.isLook = true) : wordsWritten trace = [] := by
  refine List.filterMap_eq_nil_iff.mpr fun x hx => ?_
  have hx := h x hx
  unfold isLook at hx
  split at hx <;> first | rfl | cases hx

end Performed

namespace Engine

variable (e : Engine) (vaddr : VirtualAddress)

/-- The slots of the levels in turn, each in the table that what was read before led to. -/
def slotsIn (levels : List Level) (tables : List PhysicalAddress) : List PhysicalAddress :=
  List.zipWith (fun l table => e.slotAddress table vaddr l) levels tables

theorem slotsIn_prefix (levels : List Level) (tables more : List PhysicalAddress) :
    e.slotsIn vaddr levels tables <+: e.slotsIn vaddr levels (tables ++ more) := by
  induction tables generalizing levels with
  | nil => simp [slotsIn]
  | cons table tables ih =>
    cases levels with
    | nil => exact List.prefix_refl _
    | cons l deeper => exact (List.prefix_cons_inj _).mpr (ih deeper)

variable {e vaddr} {pid : Pid} {trace : List Performed}

/-- The induction is on the levels; each one reads one word, and if the walk goes on then into the
table that this word names. -/
theorem path_descend {levels : List Level} {table : PhysicalAddress}
    {r : Except Error (List Visit)} (h : (e.descend vaddr levels table).run.Path trace r) :
    Performed.wordsRead trace <+:
        e.slotsIn vaddr levels (table :: Performed.tables e.arch trace) ∧
      ∀ visits, r = .ok visits → ∀ v ∈ visits, v.slot ∈ Performed.wordsRead trace := by
  induction levels generalizing table trace r with
  | nil =>
    cases h
    exact ⟨List.nil_prefix, fun visits hv => by cases hv; exact nofun⟩
  | cons l deeper ih =>
    obtain ⟨err, hread, rfl⟩ | ⟨raw, first, rest, hread, hrest, rfl⟩ := Op.path_bind h
    · obtain ⟨reply, rfl, rfl⟩ := Op.path_act (a := .readWord _) (g := id) rfl hread
      exact ⟨(List.prefix_cons_inj _).mpr List.nil_prefix, nofun⟩
    · obtain ⟨reply, rfl, rfl⟩ := Op.path_act (a := .readWord _) (g := id) rfl hread
      have hhere : ∀ rest', Performed.wordsRead rest' <+:
          e.slotsIn vaddr deeper (e.arch.tableAddress raw :: Performed.tables e.arch rest') →
          Performed.wordsRead (.acted (.readWord (e.slotAddress table vaddr l)) (.ok raw) :: rest')
            <+: e.slotsIn vaddr (l :: deeper) (table :: Performed.tables e.arch
              (.acted (.readWord (e.slotAddress table vaddr l)) (.ok raw) :: rest')) :=
        fun rest' hpath => (List.prefix_cons_inj _).mpr hpath
      dsimp only at hrest
      split at hrest
      · cases hrest
        refine ⟨hhere [] List.nil_prefix, fun visits hv => ?_⟩
        cases hv
        exact List.forall_mem_singleton.mpr List.mem_cons_self
      · split at hrest
        · obtain ⟨err, hnote, _⟩ | ⟨_, noted, last, hnote, hlast, rfl⟩ := Op.path_bind hrest
          · obtain ⟨_, _, hreply⟩ := Op.path_act (a := .note _) (g := .ok) rfl hnote
            cases hreply
          · obtain ⟨_, rfl, _⟩ := Op.path_act (a := .note _) (g := .ok) rfl hnote
            cases hlast
            refine ⟨hhere _ List.nil_prefix, fun visits hv => ?_⟩
            cases hv
            exact List.forall_mem_singleton.mpr List.mem_cons_self
        · obtain ⟨result, hdeeper, rfl⟩ := Op.path_bind_pure hrest
          obtain ⟨hpath, hslots⟩ := ih hdeeper
          refine ⟨hhere _ hpath, fun visits hv => ?_⟩
          cases result with
          | error err => cases hv
          | ok below =>
            cases hv
            exact List.forall_mem_cons.mpr ⟨List.mem_cons_self,
              fun v hv => List.mem_cons_of_mem _ (hslots _ rfl v hv)⟩

theorem path_walkFrom {space : SpaceId} {r : Except Error (List Visit)}
    (h : (e.walkFrom space vaddr pid).run.Path trace r) :
    Performed.wordsRead trace <+:
        e.slotsIn vaddr e.geometry.levels (Performed.tables e.arch trace) ∧
      ∀ visits, r = .ok visits → ∀ v ∈ visits, v.slot ∈ Performed.wordsRead trace := by
  obtain ⟨err, hroot, _⟩ | ⟨root, first, rest, hroot, hrest, rfl⟩ := Op.path_bind h
  · obtain ⟨_, _, hreply⟩ := Op.path_act (a := .readRoot _) (g := .ok) rfl hroot
    cases hreply
  · obtain ⟨_, rfl, hreply⟩ := Op.path_act (a := .readRoot _) (g := .ok) rfl hroot
    cases hreply
    split at hrest
    · obtain ⟨err, hnote, _⟩ | ⟨_, noted, last, hnote, hlast, rfl⟩ := Op.path_bind hrest
      · obtain ⟨_, _, hreply⟩ := Op.path_act (a := .note _) (g := .ok) rfl hnote
        cases hreply
      · obtain ⟨_, rfl, _⟩ := Op.path_act (a := .note _) (g := .ok) rfl hnote
        cases hlast
        exact ⟨List.nil_prefix, fun visits hv => by cases hv; exact nofun⟩
    · exact path_descend hrest

theorem path_walk {r : Except Error (List Visit)} (h : (e.walk vaddr pid).run.Path trace r) :
    Performed.wordsRead trace <+:
        e.slotsIn vaddr e.geometry.levels (Performed.tables e.arch trace) ∧
      ∀ visits, r = .ok visits → ∀ v ∈ visits, v.slot ∈ Performed.wordsRead trace := by
  obtain ⟨err, rfl, rfl⟩ | ⟨space, inside, hinside, rfl⟩ := Op.path_holding h
  · exact ⟨List.nil_prefix, nofun⟩
  · obtain ⟨hpath, hslots⟩ := path_walkFrom hinside
    rw [Performed.wordsRead_held, Performed.tables_held]
    exact ⟨hpath, hslots⟩

theorem only_writeLevels_slots (visits : List Visit) (mask : LevelMask)
    (patchFor : Level → EntryPatch) (ls : List Level) (written : LevelMask) :
    Op.Only (Performed.writesOnly (visits.map Visit.slot))
      (e.writeLevels visits mask patchFor ls written) := by
  induction ls generalizing written with
  | nil => exact .pure _
  | cons l rest ih =>
    simp only [writeLevels]
    split
    · exact ih written
    · cases hv : reached? visits l with
      | none => exact (Op.Only.note rfl).bind fun _ => ih written
      | some v =>
        have hmem : v.slot ∈ visits.map Visit.slot := List.mem_map_of_mem (reached?_eq_some hv).1
        refine (Op.Only.note rfl).bind fun _ => Op.Only.bind ?_ fun _ => ih _
        exact .act (.writeWord _ _) id rfl fun _ => List.contains_iff_mem.mpr hmem

variable (e vaddr)

/-- The words of a trace lie in tables as they should. -/
structure Sited (trace : List Performed) : Prop where
  /-- Each word read is the slot of its level in the table that what was read before led to. -/
  reads : Performed.wordsRead trace <+:
    e.slotsIn vaddr e.geometry.levels (Performed.tables e.arch trace)
  writes : Performed.wordsWritten trace ⊆ Performed.wordsRead trace
  tables : ∀ table ∈ Performed.tables e.arch trace, ∀ l, e.Room vaddr table l
  /-- No memory refuses to access them for not being aligned. -/
  accepted : ∀ a, a ∈ Performed.wordsRead trace ∨ a ∈ Performed.wordsWritten trace →
    ∀ memory : Memory, memory.misaligned a = false

variable {e vaddr}

theorem sited_of_reads (hu : e.geometry.isUsable = true)
    (hreads : Performed.wordsRead trace <+:
      e.slotsIn vaddr e.geometry.levels (Performed.tables e.arch trace))
    (hwrites : Performed.wordsWritten trace ⊆ Performed.wordsRead trace) :
    e.Sited vaddr trace := by
  have htables : ∀ table ∈ Performed.tables e.arch trace, ∀ l, e.Room vaddr table l :=
    fun table ht l => e.room_of_holdsTable vaddr hu (Performed.holdsTable_tables ht) l
  have haligned : ∀ a ∈ Performed.wordsRead trace, PhysicalAddress.Aligned a := by
    intro a ha
    have hslot := hreads.subset ha
    rw [slotsIn, ← List.map_uncurry_zip_eq_zipWith] at hslot
    obtain ⟨⟨l, table⟩, hmem, rfl⟩ := List.mem_map.mp hslot
    exact (htables table (List.of_mem_zip hmem).2 l).aligned
  refine ⟨hreads, hwrites, htables, fun a ha memory => ?_⟩
  have hread : a ∈ Performed.wordsRead trace := ha.elim id fun ha => hwrites ha
  simp [Memory.misaligned, (haligned a hread).alignedTo]

theorem sited_resolve (hu : e.geometry.isUsable = true) {r : Except Error EntrySet}
    (h : (e.resolve vaddr pid).run.Path trace r) : e.Sited vaddr trace := by
  obtain ⟨result, hwalk, _⟩ := Op.path_bind_pure h
  refine sited_of_reads hu (path_walk hwalk).1 ?_
  rw [Performed.wordsWritten_of_isLook (e.only_walk vaddr pid _ _ hwalk)]
  exact List.nil_subset _

theorem sited_perform (hu : e.geometry.isUsable = true) {d : EntryEdit}
    {r : Except Error EditReport} (h : (d.perform e vaddr pid).run.Path trace r) :
    e.Sited vaddr trace := by
  cases EntryEdit.path_perform h with
  | refused err => exact sited_of_reads hu List.nil_prefix (List.nil_subset _)
  | @lost space walk err hwalk hlook =>
    have hwritten : Performed.wordsWritten
        (.entered pid (.ok space) :: walk ++ [.acted (.release pid) ()]) = [] := by
      rw [Performed.wordsWritten_append]
      show Performed.wordsWritten walk ++ [] = []
      rw [Performed.wordsWritten_of_isLook hlook, List.append_nil]
    refine sited_of_reads hu ?_ (hwritten ▸ List.nil_subset _)
    rw [Performed.wordsRead_held, Performed.tables_held]
    exact (path_walk hwalk).1
  | @walked space walk writes visits result hwalk hlook hwrites hstore =>
    obtain ⟨hpath, hslots⟩ := path_walk hwalk
    have honly := only_writeLevels_slots visits d.mask d.patchFor Level.all .none _ _ hwrites
    have hread : Performed.wordsRead (.entered pid (.ok space) :: walk ++ writes ++
        [.acted (.flush vaddr) (), .acted (.release pid) ()]) = Performed.wordsRead walk := by
      rw [Performed.wordsRead_append, Performed.wordsRead_append,
        Performed.wordsRead_of_writesOnly honly, List.append_nil]
      exact List.append_nil _
    have hwritten : Performed.wordsWritten (.entered pid (.ok space) :: walk ++ writes ++
        [.acted (.flush vaddr) (), .acted (.release pid) ()]) = Performed.wordsWritten writes := by
      rw [Performed.wordsWritten_append, Performed.wordsWritten_append]
      show Performed.wordsWritten walk ++ _ ++ [] = _
      rw [Performed.wordsWritten_of_isLook hlook, List.append_nil, List.nil_append]
    have htables : Performed.tables e.arch (.entered pid (.ok space) :: walk ++ writes ++
        [.acted (.flush vaddr) (), .acted (.release pid) ()]) =
          Performed.tables e.arch walk ++ Performed.tables e.arch writes := by
      rw [Performed.tables_append, Performed.tables_append]
      exact List.append_nil _
    refine sited_of_reads hu ?_ ?_
    · rw [hread, htables]
      exact hpath.trans (e.slotsIn_prefix vaddr _ _ _)
    · rw [hread, hwritten]
      intro a ha
      obtain ⟨v, hv, rfl⟩ := List.mem_map.mp (Performed.wordsWritten_of_writesOnly honly ha)
      exact hslots visits rfl v hv

/-! ### Every walk and every edit -/

/-- The addresses that an engine computes are those it means. -/
structure SoundSlots (e : Engine) : Prop where
  root : ∀ root, e.arch.rootTable (e.arch.rootTable root) = e.arch.rootTable root
  resolve : ∀ vaddr pid trace r, (e.resolve vaddr pid).run.Path trace r → e.Sited vaddr trace
  edit : ∀ (d : EntryEdit) vaddr pid trace r, (d.perform e vaddr pid).run.Path trace r →
    e.Sited vaddr trace
  /-- This includes what is performed when they run on a machine. -/
  resolved : ∀ others m vaddr pid eff, (e.resolve vaddr pid).runOn others m = some eff →
    e.Sited vaddr ((e.resolve vaddr pid).traceOn others m)
  edited : ∀ others m (d : EntryEdit) vaddr pid eff,
    (d.perform e vaddr pid).runOn others m = some eff →
    e.Sited vaddr ((d.perform e vaddr pid).traceOn others m)

theorem sound_slots (e : Engine) (h : e.geometry.Constructed) : e.SoundSlots where
  root := e.arch.rootTable_rootTable
  resolve _ _ _ _ hpath := sited_resolve h.isUsable hpath
  edit _ _ _ _ _ hpath := sited_perform h.isUsable hpath
  resolved _ _ _ _ _ hrun := sited_resolve h.isUsable (Program.path_trace hrun)
  edited _ _ _ _ _ _ hrun := sited_perform h.isUsable (Program.path_trace hrun)

/-- A resolution that reads the root table twice, since its first entry points back at it. -/
theorem sound_slots_selfMapped :
    let e : Engine := ⟨.x86_64, .smallest⟩
    e.geometry.Constructed ∧
      Performed.wordsRead ((e.resolve ⟨0x10⟩ 1).traceOn .yielding .selfMapped) =
        [⟨0x1000⟩, ⟨0x1008⟩] ∧
      e.Sited ⟨0x10⟩ ((e.resolve ⟨0x10⟩ 1).traceOn .yielding .selfMapped) :=
  ⟨Geometry.constructed_smallest, rfl,
    (sound_slots ⟨.x86_64, .smallest⟩ Geometry.constructed_smallest).resolved .yielding .selfMapped
      ⟨0x10⟩ 1 _ rfl⟩

end Engine

end Paging
