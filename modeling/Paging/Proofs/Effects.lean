import Paging.Proofs.Editing
import Paging.Proofs.Translation

/-!
# What edits write

All seven edits are one run with a mask and a patch for each level (`EntryEdit.perform_eq`), so that
there is one account of them. Whatever succeeds has written exactly the selected levels that
resolving the address before the edit reports as reached, each with its new entry over the slot that
the translation has there; it has left every other byte alone and has moved no root
(`EntryEdit.perform_writes`).
-/

namespace Paging

inductive EntryEdit where
  | update (values : PerLevel Word) (mask : LevelMask)
  | patch (mask : LevelMask) (p : EntryPatch)
  | setBit (mask : LevelMask) (b : UInt32)
  | clearBit (mask : LevelMask) (b : UInt32)
  | setLastBit (b : UInt32)
  | clearLastBit (b : UInt32)
  | setLastPfn (pfn : Word)

/-- What an edit answers: the levels it wrote, or whether it wrote the last one. -/
inductive EditReport where
  | levels (written : LevelMask)
  | changed (written : Bool)
deriving DecidableEq

namespace EntryEdit

def mask : EntryEdit → LevelMask
  | update _ mask | patch mask _ | setBit mask _ | clearBit mask _ => mask
  | setLastBit _ | clearLastBit _ | setLastPfn _ => .single .pte

def patchFor : EntryEdit → Level → EntryPatch
  | update values _, l => .replace (values.get l)
  | patch _ p, _ => p
  | setBit _ b, _ | setLastBit b, _ => EntryPatch.empty.setBit b
  | clearBit _ b, _ | clearLastBit b, _ => EntryPatch.empty.clearBit b
  | setLastPfn pfn, _ => EntryPatch.empty.withPfn pfn

def report : EntryEdit → LevelMask → EditReport
  | update _ _, w | patch _ _, w | setBit _ _, w | clearBit _ _, w => .levels w
  | setLastBit _, w | clearLastBit _, w | setLastPfn _, w => .changed !w.isEmpty

def perform (d : EntryEdit) (e : Engine) (vaddr : VirtualAddress) (pid : Pid) : Op EditReport :=
  match d with
  | update values mask => .levels <$> e.update vaddr pid values mask
  | patch mask p => .levels <$> e.patch vaddr pid mask p
  | setBit mask b => .levels <$> e.setBit vaddr pid mask b
  | clearBit mask b => .levels <$> e.clearBit vaddr pid mask b
  | setLastBit b => .changed <$> e.setLastBit vaddr pid b
  | clearLastBit b => .changed <$> e.clearLastBit vaddr pid b
  | setLastPfn pfn => .changed <$> e.setLastPfn vaddr pid pfn

theorem perform_eq (d : EntryEdit) (e : Engine) (vaddr : VirtualAddress) (pid : Pid) :
    d.perform e vaddr pid =
      e.edit vaddr pid d.mask d.patchFor >>= fun w => pure (d.report w) := by
  cases d <;>
    simp only [perform, map_eq_pure_bind, Engine.setLastBit, Engine.clearLastBit,
      Engine.setLastPfn, Engine.setBit, Engine.clearBit, Engine.patch, Engine.update, bind_assoc,
      pure_bind] <;> rfl

/-- The levels that an edit writes where resolving the address gives `set`. -/
def written (d : EntryEdit) (set : EntrySet) : List Level :=
  Level.all.filter fun l => d.mask.has l && set.valid.has l

/-- The words that it writes there, root first: at every such level the entry found there with the
patch laid over it. -/
def stores (d : EntryEdit) (x : Translation) (set : EntrySet) : List (PhysicalAddress × Word) :=
  (d.written set).map fun l =>
    (x.slotAddress (x.engine.geometry.levels.idxOf l),
      x.engine.arch.encode (set.raw l) (d.patchFor l) (Geometry.kind l))

/-- What there is to say of the memory after an edit of an address that resolved to `set`. -/
structure Effected (d : EntryEdit) (x : Translation) (set : EntrySet) (after : Memory) : Prop where
  memory_eq : after = x.memory.preload (d.stores x set)
  inside : ∀ s ∈ d.stores x set, ∃ start, x.memory.inside? s.1 8 = some start
  size_eq : after.size = x.memory.size
  untouched : ∀ p, (∀ s ∈ d.stores x set, x.memory.covers s.1 p = false) →
    after.bytes[p]? = x.memory.bytes[p]?
  /-- Every written level exists and has only present tables above it; above the last level, the
  entry written was itself present. -/
  reached : ∀ l ∈ d.written set, ∃ i ≤ x.stop, i < x.engine.geometry.levels.length ∧
    x.level i = l ∧ (∀ j < i, (x.entry j).present = true ∧ (x.entry j).leaf = false) ∧
    (l ≠ Level.last → (x.entry i).present = true)

end EntryEdit

/-! ### Levels that a walk reached -/

namespace Engine

variable {visits : List Visit} {l : Level} {v : Visit}

theorem reached?_eq_some (h : reached? visits l = some v) :
    v ∈ visits ∧ v.level = l ∧ v.valid = true := by
  have hp := List.find?_some h
  simp only [Bool.and_eq_true, beq_iff_eq] at hp
  exact ⟨List.mem_of_find?_eq_some h, hp⟩

theorem isSome_reached? (pid : Pid) (vaddr : VirtualAddress) (visits : List Visit) (l : Level) :
    (reached? visits l).isSome = (EntrySet.ofVisits pid vaddr visits).valid.has l := by
  rw [EntrySet.valid_ofVisits, LevelMask.has_ofLevels, Bool.eq_iff_iff, reached?,
    List.find?_isSome, decide_eq_true_eq, List.mem_map]
  constructor
  · rintro ⟨v, hv, hp⟩
    simp only [Bool.and_eq_true, beq_iff_eq] at hp
    exact ⟨v, List.mem_filter.mpr ⟨hv, hp.2⟩, hp.1⟩
  · rintro ⟨v, hv, hl⟩
    obtain ⟨hmem, hvalid⟩ := List.mem_filter.mp hv
    exact ⟨v, hmem, by simp [hl, hvalid]⟩

theorem storesAt_eq_map (e : Engine) (visits : List Visit) (mask : LevelMask)
    (patchFor : Level → EntryPatch) {f : Level → PhysicalAddress × Word}
    (hf : ∀ l v, reached? visits l = some v →
      f l = (v.slot, e.arch.encode v.raw (patchFor l) (Geometry.kind l))) (ls : List Level) :
    e.storesAt visits mask patchFor ls = (writtenAt visits mask ls).map f := by
  induction ls with
  | nil => rfl
  | cons l ls ih =>
    unfold storesAt writtenAt at ih ⊢
    cases hm : mask.has l with
    | false => simp [hm, ih]
    | true =>
      cases hv : reached? visits l with
      | none => simp [hm, hv, ih]
      | some v => simp [hm, hv, ih, hf l v hv]

end Engine

/-! ### The visits of a walk that ended well -/

namespace Translation

variable {x : Translation} {visits : List Visit} {l : Level} {v : Visit}

theorem visited_ok (hu : x.engine.geometry.isUsable = true)
    (h : x.engine.visited x.vaddr x.memory x.root = .ok visits) :
    visits = [] ∨ (∀ i ≤ x.stop, x.readable i = true) ∧ visits = x.path := by
  cases hroot : x.root.isNull with
  | true =>
    rw [Engine.visited, hroot] at h
    exact .inl (Except.ok.inj h).symm
  | false =>
    right
    by_cases hr : ∀ i ≤ x.stop, x.readable i = true
    · rw [visited_of_readable hu hroot hr] at h
      exact ⟨hr, (Except.ok.inj h).symm⟩
    · simp only [Classical.not_forall, Bool.not_eq_true] at hr
      obtain ⟨i, hi, hir⟩ := hr
      obtain ⟨k, hk, hbefore, hkr⟩ := exists_first_unreadable hir
      rw [visited_of_unreadable hu hroot (by omega) hbefore hkr] at h
      cases h

theorem reached_visit (hu : x.engine.geometry.isUsable = true)
    (h : x.engine.visited x.vaddr x.memory x.root = .ok visits)
    (hv : Engine.reached? visits l = some v) :
    ∃ i ≤ x.stop, (∀ j ≤ i, x.readable j = true) ∧ x.level i = l ∧ v = x.visit i ∧
      v.valid = true ∧ x.engine.geometry.levels.idxOf l = i := by
  obtain ⟨hmem, hlevel, hvalid⟩ := Engine.reached?_eq_some hv
  obtain rfl | ⟨hr, rfl⟩ := visited_ok hu h
  · cases hmem
  · obtain ⟨i, hi, rfl⟩ := List.mem_map.mp hmem
    have hle : i ≤ x.stop := Nat.le_of_lt_succ (List.mem_range.mp hi)
    have hlt : i < x.engine.geometry.levels.length := Nat.lt_of_le_of_lt hle (stop_lt hu)
    have hidx : x.engine.geometry.levels.idxOf l = i := by
      rw [← hlevel]
      show x.engine.geometry.levels.idxOf (x.level i) = i
      rw [level_eq_getElem hlt]
      exact (Geometry.nodup_levels _).idxOf_getElem i hlt
    exact ⟨i, hle, fun j hj => hr j (by omega), hlevel, rfl, hvalid, hidx⟩

theorem nodup_visited (hu : x.engine.geometry.isUsable = true)
    (h : x.engine.visited x.vaddr x.memory x.root = .ok visits) :
    (visits.map Visit.level).Nodup := by
  obtain rfl | ⟨_, rfl⟩ := visited_ok hu h
  · exact List.nodup_nil
  · exact nodup_path hu

/-- What a walk reached lies inside the memory. A file of zeros is excluded because its root table
has no present entry. -/
theorem inside_of_valid (hu : x.engine.geometry.isUsable = true) {i : Nat} (hi : i ≤ x.stop)
    (hr : ∀ j ≤ i, x.readable j = true) (hvalid : (x.visit i).valid = true) :
    x.memory.backing ≠ .file .zeros ∧
      ∃ start, x.memory.inside? (x.slotAddress i) 8 = some start := by
  have hlast : ∀ j ≤ i, x.memory.backing = .file .zeros → x.raw j = 0 := by
    intro j hj hz
    obtain ⟨_, hzero⟩ | ⟨hne, _⟩ := Memory.inside_of_readWord (readWord_of_readable (hr j hj))
    · exact hzero
    · exact absurd hz hne
  obtain ⟨hz, _⟩ | hin := Memory.inside_of_readWord (readWord_of_readable (hr i (Nat.le_refl i)))
  · have hlen := Geometry.two_le_length_levels hu
    have habsent : (x.entry 0).present = false := by
      rw [entry_eq, hlast 0 (Nat.zero_le i) hz]
      exact Architecture.present_view_zero _
    have hstop : x.stop = 0 := by
      cases hs : x.stop with
      | zero => rfl
      | succ n =>
        have hends : x.ends 0 = false := not_ends_of_lt_stop (by omega)
        rw [(not_ends_cases hends).2.1] at habsent
        cases habsent
    have hi0 : i = 0 := by omega
    subst hi0
    have hroot : x.level 0 ≠ Level.last := by
      have hget := Geometry.getElem_levels_eq_last hu (i := 0) (by omega)
      rw [level_eq_getElem (by omega)]
      intro hl
      have := hget.mp hl
      omega
    simp [visit, habsent, hroot] at hvalid
  · exact hin

end Translation

namespace EntryEdit

variable {x : Translation} {visits : List Visit} {pid : Pid} (d : EntryEdit)

theorem writtenAt_eq (visits : List Visit) (pid : Pid) (vaddr : VirtualAddress) :
    Engine.writtenAt visits d.mask Level.all =
      d.written (EntrySet.ofVisits pid vaddr visits) := by
  unfold Engine.writtenAt written
  apply List.filter_congr
  intro l _
  rw [Engine.isSome_reached? pid vaddr]

theorem storesAt_eq (hu : x.engine.geometry.isUsable = true)
    (h : x.engine.visited x.vaddr x.memory x.root = .ok visits) (pid : Pid) :
    x.engine.storesAt visits d.mask d.patchFor Level.all =
      d.stores x (EntrySet.ofVisits pid x.vaddr visits) := by
  rw [stores, ← writtenAt_eq]
  apply Engine.storesAt_eq_map
  intro l v hv
  obtain ⟨i, _, _, hl, hvisit, _, hidx⟩ := Translation.reached_visit hu h hv
  have hraw : (EntrySet.ofVisits pid x.vaddr visits).raw v.level = v.raw :=
    EntrySet.raw_ofVisits (Translation.nodup_visited hu h) (Engine.reached?_eq_some hv).1
  rw [(Engine.reached?_eq_some hv).2.1] at hraw
  rw [hidx, hraw, hvisit]
  rfl

theorem effected (hu : x.engine.geometry.isUsable = true)
    (h : x.engine.visited x.vaddr x.memory x.root = .ok visits) (pid : Pid)
    (hw : (Memory.writeWords (x.engine.storesAt visits d.mask d.patchFor Level.all)
      x.memory).1 = none) :
    d.Effected x (EntrySet.ofVisits pid x.vaddr visits)
      (Memory.writeWords (x.engine.storesAt visits d.mask d.patchFor Level.all) x.memory).2 := by
  have hstores := d.storesAt_eq hu h pid
  -- the visit behind every level that is written
  have hvisit : ∀ l ∈ d.written (EntrySet.ofVisits pid x.vaddr visits), ∃ i ≤ x.stop,
      (∀ j ≤ i, x.readable j = true) ∧ x.level i = l ∧ (x.visit i).valid = true ∧
        x.engine.geometry.levels.idxOf l = i := by
    intro l hl
    have hsome : (Engine.reached? visits l).isSome = true := by
      have hsel := (List.mem_filter.mp hl).2
      rw [Bool.and_eq_true, ← Engine.isSome_reached?] at hsel
      exact hsel.2
    obtain ⟨v, hv⟩ := Option.isSome_iff_exists.mp hsome
    obtain ⟨i, hi, hr, hlevel, rfl, hvalid, hidx⟩ := Translation.reached_visit hu h hv
    exact ⟨i, hi, hr, hlevel, hvalid, hidx⟩
  have hin : ∀ s ∈ d.stores x (EntrySet.ofVisits pid x.vaddr visits),
      x.memory.backing ≠ .file .zeros ∧ ∃ start, x.memory.inside? s.1 8 = some start := by
    intro s hs
    obtain ⟨l, hl, rfl⟩ := List.mem_map.mp hs
    obtain ⟨i, hi, hr, _, hvalid, hidx⟩ := hvisit l hl
    have hinside := Translation.inside_of_valid hu hi hr hvalid
    rw [← hidx] at hinside
    exact hinside
  have hmemory : (Memory.writeWords (x.engine.storesAt visits d.mask d.patchFor Level.all)
      x.memory).2 = x.memory.preload (d.stores x (EntrySet.ofVisits pid x.vaddr visits)) := by
    rw [hstores] at hw ⊢
    by_cases hz : x.memory.backing = .file .zeros
    · -- nothing is reached in a file of zeros
      have hnil : d.stores x (EntrySet.ofVisits pid x.vaddr visits) = [] := by
        apply List.eq_nil_iff_forall_not_mem.mpr
        intro s hs
        exact (hin s hs).1 hz
      rw [hnil]
      rfl
    · exact Memory.writeWords_eq_preload _ _ hz (fun s hs => (hin s hs).2) hw
  constructor
  case memory_eq => exact hmemory
  case inside => exact fun s hs => (hin s hs).2
  case size_eq => rw [hmemory, Memory.size_preload]
  case untouched =>
    intro p hp
    rw [hmemory, Memory.getElem?_preload _ _ hp]
  case reached =>
    intro l hl
    obtain ⟨i, hi, _, hlevel, hvalid, _⟩ := hvisit l hl
    refine ⟨i, hi, Nat.lt_of_le_of_lt hi (Translation.stop_lt hu), hlevel, ?_, ?_⟩
    · intro j hj
      exact (Translation.not_ends_cases (Translation.not_ends_of_lt_stop (by omega))).2
    · intro hne
      have hnl : x.level i ≠ Level.last := fun hl => hne (hlevel ▸ hl)
      simpa [Translation.visit, hnl] using hvalid

/-- A successful edit has written the selected levels that resolving the address beforehand reports
as reached, and nothing else. -/
theorem perform_writes {e : Engine} (hg : e.geometry.Constructed) {others : Bystander}
    (ho : others.Honest) (d : EntryEdit) {vaddr : VirtualAddress} {pid : Pid} {m after : Machine}
    {es : List Event} {report : EditReport}
    (h : (d.perform e vaddr pid).runOn others m = some ⟨es, after, .ok report⟩) :
    ∃ space held es₀ set, m.locks.Grants others pid space held ∧
      (e.resolve vaddr pid).runOn others m =
        some ⟨es₀, { m with locks := (held.release pid).2 }, .ok set⟩ ∧
      (⟨e, m.memory, held.root space, vaddr⟩ : Translation).Outcome pid (.ok set) ∧
      report = d.report (.ofLevels (d.written set)) ∧
      d.Effected ⟨e, m.memory, held.root space, vaddr⟩ set after.memory ∧
      (∀ s < m.locks.spaces.length,
        held.root s = m.locks.root s ∧ after.locks.root s = m.locks.root s) := by
  rw [perform_eq, Op.runOn_bind] at h
  obtain ⟨⟨es', after', reply⟩, hedit, hfollow⟩ := Option.bind_eq_some_iff.mp h
  cases reply with
  | error err => cases hfollow
  | ok w =>
    cases hfollow
    obtain ⟨space, held, visits, hgr, hv, hw, hafter, hwritten⟩ := Engine.edit_ok ho hedit
    obtain ⟨es₀, hresolve⟩ := e.runOn_resolve vaddr others hgr
    let x : Translation := ⟨e, m.memory, held.root space, vaddr⟩
    have hu : x.engine.geometry.isUsable = true := hg.isUsable
    have houtcome := Translation.outcome_visited hu pid
    have hvx : x.engine.visited x.vaddr x.memory x.root = .ok visits := hv
    rw [hv] at hresolve
    rw [hvx] at houtcome
    refine ⟨space, held, es₀, _, hgr, hresolve, houtcome, ?_, ?_, ?_⟩
    · rw [hwritten, d.writtenAt_eq visits pid vaddr]
    · have heff := d.effected hu hvx pid hw
      rw [hafter]
      exact heff
    · intro s hs
      have hroot := LockTable.root_of_grants ho hgr hs
      rw [hafter]
      exact ⟨hroot, (Engine.root_afterEdit held pid s).trans hroot⟩

theorem perform_selfMapped : ∃ es after,
    ((setLastBit 3).perform ⟨.x86_64, .smallest⟩ ⟨0x10⟩ 1).runOn .yielding Machine.selfMapped =
      some ⟨es, after, .ok (.changed true)⟩ := ⟨_, _, rfl⟩

theorem perform_writes_selfMapped : ∃ es after,
    ((setLastBit 3).perform ⟨.x86_64, .smallest⟩ ⟨0x10⟩ 1).runOn .yielding Machine.selfMapped =
      some ⟨es, after, .ok (.changed true)⟩ ∧
    ∃ space held es₀ set, Machine.selfMapped.locks.Grants .yielding 1 space held ∧
      ((⟨.x86_64, .smallest⟩ : Engine).resolve ⟨0x10⟩ 1).runOn .yielding Machine.selfMapped =
        some ⟨es₀, { Machine.selfMapped with locks := (held.release 1).2 }, .ok set⟩ ∧
      (⟨⟨.x86_64, .smallest⟩, Machine.selfMapped.memory, held.root space, ⟨0x10⟩⟩ :
        Translation).Outcome 1 (.ok set) ∧
      .changed true = (setLastBit 3).report (.ofLevels ((setLastBit 3).written set)) ∧
      (setLastBit 3).Effected
        ⟨⟨.x86_64, .smallest⟩, Machine.selfMapped.memory, held.root space, ⟨0x10⟩⟩ set
        after.memory ∧
      (∀ s < Machine.selfMapped.locks.spaces.length,
        held.root s = Machine.selfMapped.locks.root s ∧
          after.locks.root s = Machine.selfMapped.locks.root s) := by
  obtain ⟨es, after, h⟩ := perform_selfMapped
  exact ⟨es, after, h,
    perform_writes Geometry.constructed_smallest Bystander.honest_yielding (.setLastBit 3) h⟩

end EntryEdit

end Paging
