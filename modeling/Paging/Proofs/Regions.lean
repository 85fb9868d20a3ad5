import Paging.Proofs.Effects
import Paging.Proofs.Footprint

/-!
# Addresses that resolve alike

A walk consumes the address bits that index the tables it looks at, root first, and no others. Two
addresses that have the same bits from the lowest one consumed up to the highest of the geometry
therefore resolve alike (`Engine.resolve_determined`): they read the same words, and the answers
differ at most in the address they are for. This covers the bits that no level consumes, and all
addresses of the region that the entry at the end of the walk maps as a whole.
-/

namespace Paging

/-- The same bits from `lo` on up to `hi`, which is not included. -/
def Address.Agree {kind : AddressKind} (lo hi : Nat) (a b : Address kind) : Prop :=
  ∀ i, lo ≤ i → i < hi → Word.bit a.word i = Word.bit b.word i

/-! ### Bits that levels consume -/

namespace Geometry

variable {g : Geometry} {l : Level} {a b : VirtualAddress}

theorem shift_add_width_le (g : Geometry) (l : Level) : g.shift l + g.width l ≤ g.virtualBits := by
  unfold shift virtualBits
  cases l <;> simp only [Level.below, Level.all, List.map_cons, List.map_nil, List.foldr_cons,
    List.foldr_nil] <;> omega

/-- The further from the root, the lower the bits that a level consumes. -/
theorem pairwise_shift_levels (g : Geometry) :
    g.levels.Pairwise fun l k => g.shift k ≤ g.shift l := by
  apply List.Pairwise.filter
  simp only [Level.all, List.pairwise_cons, List.mem_cons, List.not_mem_nil, or_false,
    forall_eq_or_imp, forall_eq, shift, Level.below, List.map_cons, List.map_nil, List.foldr_cons,
    List.foldr_nil, List.Pairwise.nil, false_implies, implies_true, and_true]
  omega

theorem index_of_agree {lo : Nat} (h : a.Agree lo g.virtualBits b) (hlo : lo ≤ g.shift l) :
    g.index b l = g.index a l := by
  have hle := g.shift_add_width_le l
  unfold index
  apply Nat.eq_of_testBit_eq
  intro i
  rw [Nat.testBit_mod_two_pow, Nat.testBit_mod_two_pow, Nat.testBit_div_two_pow,
    Nat.testBit_div_two_pow]
  by_cases hi : i < g.width l
  · have hbit := h (i + g.shift l) (by omega) (by omega)
    simp only [Word.bit_eq_testBit] at hbit
    simp only [Address.toNat, hbit]
  · simp [hi]

theorem virtualBits_le (hu : g.isUsable = true) : g.virtualBits ≤ 64 := by
  simp only [isUsable, Bool.and_eq_true, decide_eq_true_eq] at hu
  exact hu.2

theorem shift_lt (hu : g.isUsable = true) (l : Level) : g.shift l < 64 := by
  have hroot : 1 ≤ g.width .pgd := by
    obtain ⟨w, hw⟩ := Option.isSome_iff_exists.mp (isPresent_pgd hu)
    rw [width, hw]
    exact (width_mem_range hu hw).1
  have hbits := virtualBits_le hu
  have hpgd := g.shift_add_width_le .pgd
  -- the root takes bits above those of every other level, present or not
  have hle : g.shift l ≤ g.shift .pgd := by
    cases l <;> simp only [shift, Level.below, List.map_cons, List.map_nil, List.foldr_cons,
      List.foldr_nil] <;> omega
  omega

theorem toNat_regionSize (hu : g.isUsable = true) (l : Level) :
    (g.regionSize l).toNat = 2 ^ g.shift l := by
  rw [regionSize, UInt64.toNat_ofNat']
  exact Nat.mod_eq_of_lt (Nat.pow_lt_pow_right (by decide) (shift_lt hu l))

theorem agree_of_region (hu : g.isUsable = true)
    (h : a.toNat / (g.regionSize l).toNat = b.toNat / (g.regionSize l).toNat) (hi : Nat) :
    a.Agree (g.shift l) hi b := by
  intro i hlo _
  rw [toNat_regionSize hu] at h
  have hbit := congrArg (Nat.testBit · (i - g.shift l)) h
  simp only [Nat.testBit_div_two_pow, Nat.sub_add_cancel hlo] at hbit
  exact hbit

end Geometry

/-! ### Sets for another address -/

namespace EntrySet

def forAddress (set : EntrySet) (vaddr : VirtualAddress) : EntrySet := { set with vaddr := vaddr }

theorem ofVisits_forAddress (visits : List Visit) (pid : Pid) (vaddr vaddr' : VirtualAddress) :
    (ofVisits pid vaddr visits).forAddress vaddr' = ofVisits pid vaddr' visits := by
  have hfold : ∀ set : EntrySet,
      (visits.foldl (fun set v => set.record v.level v.raw v.valid) set).forAddress vaddr' =
        visits.foldl (fun set v => set.record v.level v.raw v.valid) (set.forAddress vaddr') := by
    induction visits with
    | nil => exact fun _ => rfl
    | cons v visits ih => exact fun set => ih _
  exact hfold (.empty pid vaddr)

end EntrySet

namespace Engine

variable (e : Engine) {vaddr vaddr' : VirtualAddress} {memory : Memory} {root : PhysicalAddress}

/-! ### Probes that indices determine -/

/-- From the lowest bits that a walk consumes on, addresses are alike to it. -/
theorem index_of_probes
    (h : ∀ p, (e.probes vaddr memory root).getLast? = some p →
      vaddr.Agree (e.geometry.shift p.1) e.geometry.virtualBits vaddr') :
    ∀ p ∈ e.probes vaddr memory root, e.geometry.index vaddr' p.1 = e.geometry.index vaddr p.1 := by
  intro p hp
  have hne : e.probes vaddr memory root ≠ [] := List.ne_nil_of_mem hp
  have hlast := List.getLast?_eq_some_getLast hne
  refine Geometry.index_of_agree (h _ hlast) ?_
  -- levels are looked at in the order of the geometry, so the last one consumes the lowest bits
  have hsorted : (e.probes vaddr memory root).Pairwise fun p q =>
      e.geometry.shift q.1 ≤ e.geometry.shift p.1 :=
    List.pairwise_map.mp
      (e.geometry.pairwise_shift_levels.sublist (e.levels_probes vaddr memory root).sublist)
  rw [← List.dropLast_concat_getLast hne] at hp hsorted
  rcases List.mem_append.mp hp with hp | hp
  · exact (List.pairwise_append.mp hsorted).2.2 p hp _ (List.mem_singleton_self _)
  · exact Nat.le_of_eq (by rw [List.mem_singleton.mp hp])

theorem getLast?_probesFrom_of_leaf {levels : List Level} {table : PhysicalAddress}
    {visits : List Visit} (h : e.descent vaddr memory levels table = .ok visits) {v : Visit}
    (hv : v ∈ visits) (hleaf : v.level = Level.last ∨ e.arch.isHuge v.raw = true) :
    (e.probesFrom vaddr memory levels table).getLast? = some (v.level, v.slot) := by
  induction levels generalizing table visits with
  | nil =>
    cases h
    cases hv
  | cons l deeper ih =>
    simp only [descent, probesFrom] at h ⊢
    cases hw : memory.readWord (e.slotAddress table vaddr l) with
    | error r =>
      rw [hw] at h
      cases h
    | ok raw =>
      simp only [hw] at h ⊢
      split at h
      · rename_i hends
        cases h
        rw [if_pos hends, List.mem_singleton.mp hv]
        rfl
      · rename_i hon
        rw [if_neg hon]
        cases hd : e.descent vaddr memory deeper (e.arch.tableAddress raw) with
        | error err =>
          rw [hd] at h
          cases h
        | ok rest =>
          rw [hd] at h
          cases h
          rcases List.mem_cons.mp hv with rfl | hv
          · rcases hleaf with hl | hh
            · simp [show l = Level.last from hl] at hon
            · simp [show e.arch.isHuge raw = true from hh] at hon
          · have hlast := ih hd hv
            rw [List.getLast?_cons, hlast]
            rfl

theorem getLast?_probes_of_leaf {visits : List Visit}
    (h : e.visited vaddr memory root = .ok visits) {v : Visit} (hv : v ∈ visits)
    (hleaf : v.level = Level.last ∨ e.arch.isHuge v.raw = true) :
    (e.probes vaddr memory root).getLast? = some (v.level, v.slot) := by
  unfold visited at h
  unfold probes
  split at h
  · cases h
    cases hv
  · rename_i hroot
    rw [if_neg hroot]
    exact e.getLast?_probesFrom_of_leaf h hv hleaf

/-! ### Resolutions -/

/-- Resolving either address reads the same words and gives the same answer, but for the address
that it is given for. -/
def ResolveAlike (others : Bystander) (m : Machine) (pid : Pid)
    (vaddr vaddr' : VirtualAddress) : Prop :=
  ∃ eff eff', (e.resolve vaddr pid).runOn others m = some eff ∧
    (e.resolve vaddr' pid).runOn others m = some eff' ∧
    Performed.wordsRead ((e.resolve vaddr' pid).traceOn others m) =
      Performed.wordsRead ((e.resolve vaddr pid).traceOn others m) ∧
    eff'.reply = eff.reply.map (·.forAddress vaddr')

/-- What a resolution of an address under a root depends on. -/
structure Determined (others : Bystander) (m : Machine) (pid : Pid) (root : PhysicalAddress)
    (vaddr : VirtualAddress) : Prop where
  /-- The words read are the slots that the walk looks at. -/
  reads : Performed.wordsRead ((e.resolve vaddr pid).traceOn others m) =
    (e.probes vaddr m.memory root).map Prod.snd
  consumed : ∀ vaddr', (∀ p, (e.probes vaddr m.memory root).getLast? = some p →
      vaddr.Agree (e.geometry.shift p.1) e.geometry.virtualBits vaddr') →
    e.ResolveAlike others m pid vaddr vaddr'
  rootless : root.isNull = true → ∃ eff, (e.resolve vaddr pid).runOn others m = some eff ∧
    Performed.wordsRead ((e.resolve vaddr pid).traceOn others m) = [] ∧
    eff.reply = .ok (.empty pid vaddr)
  /-- Neither the page offset matters nor the bits above those of the geometry. -/
  offset : ∀ vaddr', vaddr.Agree e.geometry.offsetBits e.geometry.virtualBits vaddr' →
    e.ResolveAlike others m pid vaddr vaddr'
  /-- An entry that was reached and maps memory itself does so for its whole region. -/
  region : ∀ eff set l, (e.resolve vaddr pid).runOn others m = some eff → eff.reply = .ok set →
    set.valid.has l = true → (l = Level.last ∨ e.arch.isHuge (set.raw l) = true) →
    ∀ vaddr', vaddr.toNat / (e.geometry.regionSize l).toNat =
        vaddr'.toNat / (e.geometry.regionSize l).toNat →
      e.ResolveAlike others m pid vaddr vaddr'

variable {e} {others : Bystander} {m : Machine} {pid : Pid} {space : SpaceId} {held : LockTable}

theorem resolveAlike_of_agree (h : m.locks.Grants others pid space held)
    (hagree : ∀ p, (e.probes vaddr m.memory (held.root space)).getLast? = some p →
      vaddr.Agree (e.geometry.shift p.1) e.geometry.virtualBits vaddr') :
    e.ResolveAlike others m pid vaddr vaddr' := by
  obtain ⟨es, hrun⟩ := e.runOn_resolve vaddr others h
  obtain ⟨es', hrun'⟩ := e.runOn_resolve vaddr' others h
  have hindex := e.index_of_probes hagree
  obtain ⟨hvisited, hprobes⟩ := e.visited_congr fun p hp => ⟨hindex p hp, rfl⟩
  refine ⟨_, _, hrun, hrun', ?_, ?_⟩
  · rw [e.wordsRead_resolve vaddr others h, e.wordsRead_resolve vaddr' others h, hprobes]
  · rw [hvisited]
    cases e.visited vaddr m.memory (held.root space) with
    | error err => rfl
    | ok visits => exact congrArg Except.ok (EntrySet.ofVisits_forAddress ..).symm

/-- The region of the entry where a walk ends takes all the bits that the walk consumed. -/
theorem agree_of_leaf (hu : e.geometry.isUsable = true) {visits : List Visit}
    (hv : e.visited vaddr memory root = .ok visits) {l : Level}
    (hvalid : (EntrySet.ofVisits pid vaddr visits).valid.has l = true)
    (hleaf : l = Level.last ∨ e.arch.isHuge ((EntrySet.ofVisits pid vaddr visits).raw l) = true)
    (hregion : vaddr.toNat / (e.geometry.regionSize l).toNat =
      vaddr'.toNat / (e.geometry.regionSize l).toNat) :
    ∀ p, (e.probes vaddr memory root).getLast? = some p →
      vaddr.Agree (e.geometry.shift p.1) e.geometry.virtualBits vaddr' := by
  rw [← isSome_reached?] at hvalid
  obtain ⟨v, hreached⟩ := Option.isSome_iff_exists.mp hvalid
  obtain ⟨hmem, rfl, _⟩ := reached?_eq_some hreached
  have hlevels : (visits.map Visit.level).Nodup :=
    Translation.nodup_visited (x := ⟨e, memory, root, vaddr⟩) hu hv
  rw [EntrySet.raw_ofVisits hlevels hmem] at hleaf
  have hlast := e.getLast?_probes_of_leaf hv hmem hleaf
  intro p hp
  rw [hlast] at hp
  cases hp
  exact Geometry.agree_of_region hu hregion _

theorem resolve_determined (hg : e.geometry.Constructed) (ho : others.Honest)
    (hen : m.locks.Enterable others pid space) (vaddr : VirtualAddress) :
    e.Determined others m pid (m.locks.root space) vaddr := by
  obtain ⟨held, hgr⟩ := LockTable.grants_of_enterable hen
  have hroot := LockTable.root_of_enterable ho hen hgr
  obtain ⟨es, hrun⟩ := e.runOn_resolve vaddr others hgr
  have hreads := e.wordsRead_resolve vaddr others hgr
  rw [hroot] at hrun hreads
  have halike : ∀ vaddr', (∀ p, (e.probes vaddr m.memory (m.locks.root space)).getLast? = some p →
      vaddr.Agree (e.geometry.shift p.1) e.geometry.virtualBits vaddr') →
      e.ResolveAlike others m pid vaddr vaddr' := by
    rw [← hroot]
    exact fun _ => resolveAlike_of_agree hgr
  constructor
  case reads => exact hreads
  case consumed => exact halike
  case rootless =>
    intro hnull
    refine ⟨_, hrun, ?_, ?_⟩
    · rw [hreads, probes, if_pos hnull]
      rfl
    · rw [visited, if_pos hnull]
      rfl
  case offset =>
    intro vaddr' hagree
    refine halike vaddr' fun p _ i hlo hhi => hagree i ?_ hhi
    exact Nat.le_trans (Nat.le_add_right ..) hlo
  case region =>
    intro eff set l heff hset hvalid hleaf vaddr' hregion
    rw [hrun] at heff
    cases heff
    cases hv : e.visited vaddr m.memory (m.locks.root space) with
    | error err =>
      rw [hv] at hset
      cases hset
    | ok visits =>
      rw [hv] at hset
      cases hset
      exact halike vaddr' (agree_of_leaf hg.isUsable hv hvalid hleaf hregion)

theorem resolve_determined_selfMapped :
    Geometry.smallest.Constructed ∧ Bystander.yielding.Honest ∧
      Machine.selfMapped.locks.Enterable Bystander.yielding 1 0 ∧
      (⟨.x86_64, .smallest⟩ : Engine).Determined .yielding .selfMapped 1 ⟨0x1000⟩ ⟨0x10⟩ ∧
      (⟨.x86_64, .smallest⟩ : Engine).ResolveAlike .yielding .selfMapped 1 ⟨0x10⟩ ⟨0x5f⟩ := by
  have hdetermined : (⟨.x86_64, .smallest⟩ : Engine).Determined .yielding .selfMapped 1 ⟨0x1000⟩
      ⟨0x10⟩ :=
    resolve_determined Geometry.constructed_smallest Bystander.honest_yielding
      Machine.enterable_selfMapped ⟨0x10⟩
  refine ⟨Geometry.constructed_smallest, Bystander.honest_yielding, Machine.enterable_selfMapped,
    hdetermined, hdetermined.offset ⟨0x5f⟩ fun i hlo hhi => ?_⟩
  have hlow : 4 ≤ i := hlo
  have hhigh : i < 6 := hhi
  obtain rfl | rfl : i = 4 ∨ i = 5 := by omega
  · decide
  · decide

end Engine

end Paging
