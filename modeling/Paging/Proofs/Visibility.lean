import Mathlib.Data.List.Nodup
import Paging.Proofs.FrameNumbers
import Paging.Proofs.Neutrality
import Paging.Proofs.ReadBack

/-!
# Edits as the next walk sees them

If a walk never meets one slot twice and an edit leaves every entry on the way pointing where it
pointed, the next walk passes the same slots and finds in them what the edit wrote
(`EntryEdit.perform_visible`). Nothing is asked of the new entry of the last level, which counts as
reached whether it is present or not; edits of that entry alone are always seen.
-/

namespace Paging

/-! ### What an edit makes of an entry -/

namespace Architecture

/-- The frame of the table that an entry above the last level points at. -/
def child? (arch : Architecture) (raw : Word) : Option Word :=
  let entry := arch.view .directory raw
  if entry.present && !entry.leaf then some entry.pfn else none

def isHugeLeaf (arch : Architecture) (raw : Word) : Bool :=
  (arch.view .directory raw).present && (arch.view .directory raw).leaf

variable {arch : Architecture} {raw frame : Word}

theorem tableAddress_of_child? (h : arch.child? raw = some frame) :
    arch.isPresent .directory raw = true ∧ arch.isHuge raw = false ∧
      arch.tableAddress raw = frameAddress frame := by
  obtain ⟨hentry, hframe⟩ := Option.ite_none_right_eq_some.mp h
  simp only [Bool.and_eq_true, Bool.not_eq_true'] at hentry
  obtain ⟨hpresent, hleaf⟩ := hentry
  refine ⟨?_, ?_, ?_⟩
  · rw [isPresent_eq_view, hpresent]
  · rw [isHuge_eq_leaf hpresent, hleaf]
  · rw [tableAddress_eq, ← pfn_view_eq hpresent hleaf, Option.some.inj hframe]

theorem isHuge_of_isHugeLeaf (h : arch.isHugeLeaf raw = true) :
    arch.isPresent .directory raw = true ∧ arch.isHuge raw = true := by
  obtain ⟨hpresent, hleaf⟩ := Bool.and_eq_true_iff.mp h
  exact ⟨by rw [isPresent_eq_view, hpresent], by rw [isHuge_eq_leaf hpresent, hleaf]⟩

theorem child?_or_isHugeLeaf (h : arch.isPresent .directory raw = true) :
    (∃ frame, arch.child? raw = some frame) ∨ arch.isHugeLeaf raw = true := by
  rw [isPresent_eq_view] at h
  unfold child? isHugeLeaf
  cases hleaf : (arch.view .directory raw).leaf <;> simp [h, hleaf]

theorem bit_encode_setBit (arch : Architecture) (raw : Word) (b : UInt32) (kind : EntryKind) :
    Word.bit (arch.encode raw (EntryPatch.empty.setBit b) kind) (b.toNat % 64) = true := by
  rw [encode_setBit, Word.bit_withBit _ (Nat.mod_lt _ (by decide)), if_pos rfl]

theorem bit_encode_clearBit (arch : Architecture) (raw : Word) (b : UInt32) (kind : EntryKind) :
    Word.bit (arch.encode raw (EntryPatch.empty.clearBit b) kind) (b.toNat % 64) = false := by
  rw [encode_clearBit, Word.bit_withBit _ (Nat.mod_lt _ (by decide)), if_pos rfl]

theorem toNat_pfn_encode (arch : Architecture) (raw pfn : Word) :
    (arch.pfn (arch.encode raw (EntryPatch.empty.withPfn pfn) .page)).toNat =
      pfn.toNat % 2 ^ arch.pfnWidth := by
  have hpage : arch.isWide .page raw = false := by cases arch <;> rfl
  rw [encode_of_pfn arch .page rfl, EntryPatch.overlay_withPfn, EntryPatch.overlay_empty]
  exact toNat_pfnAt_of_not_wide hpage pfn

end Architecture

/-! ### Visits and what is stored in their slots -/

def PerLevel.ofFn {α : Type} (f : Level → α) : PerLevel α :=
  ⟨f .pgd, f .p4d, f .pud, f .pmd, f .pte⟩

theorem PerLevel.get_ofFn {α : Type} (f : Level → α) (l : Level) : (ofFn f).get l = f l := by
  cases l <;> rfl

namespace Engine

variable {e : Engine} {visits : List Visit} {v : Visit}

theorem reached?_of_mem (hd : (visits.map Visit.level).Nodup) (hv : v ∈ visits) :
    reached? visits v.level = if v.valid then some v else none := by
  have hsame : ∀ u, reached? visits v.level = some u → u = v := by
    intro u hu
    obtain ⟨hmem, hlevel, _⟩ := reached?_eq_some hu
    exact List.inj_on_of_nodup_map hd hmem hv hlevel
  cases hr : reached? visits v.level with
  | some u =>
    have hu := hsame u hr
    subst hu
    rw [if_pos (reached?_eq_some hr).2.2]
  | none =>
    have hnone := List.find?_eq_none.mp hr v hv
    rw [if_neg]
    intro hvalid
    simp [hvalid] at hnone

theorem has_valid_ofVisits (hd : (visits.map Visit.level).Nodup) (hv : v ∈ visits) (pid : Pid)
    (vaddr : VirtualAddress) :
    (EntrySet.ofVisits pid vaddr visits).valid.has v.level = v.valid := by
  rw [← isSome_reached? pid vaddr, reached?_of_mem hd hv]
  cases v.valid <;> rfl

end Engine

namespace EntryEdit

variable (d : EntryEdit) (e : Engine)

/-- What an edit leaves where a walk met an entry. -/
def rewrite (v : Visit) : Word :=
  if d.mask.has v.level && v.valid then
    e.arch.encode v.raw (d.patchFor v.level) (Geometry.kind v.level)
  else v.raw

/-- The set with the written levels' values as the edit makes them. -/
def rewritten (set : EntrySet) : EntrySet :=
  { set with
    values := .ofFn fun l =>
      if l ∈ d.written set then e.arch.encode (set.raw l) (d.patchFor l) (Geometry.kind l)
      else set.raw l }

/-- The written entries on a walk above the last level go on pointing at the same table or mapping
memory themselves. -/
def KeepsWay (visits : List Visit) : Prop :=
  ∀ v ∈ visits, v.level ≠ Level.last → (d.mask.has v.level && v.valid) = true →
    (∀ frame, e.arch.child? v.raw = some frame → e.arch.child? (d.rewrite e v) = some frame) ∧
      (e.arch.isHugeLeaf v.raw = true → e.arch.isHugeLeaf (d.rewrite e v) = true)

variable {d e} {visits : List Visit} {v : Visit}

theorem raw_rewritten (set : EntrySet) (l : Level) :
    (d.rewritten e set).raw l =
      if l ∈ d.written set then e.arch.encode (set.raw l) (d.patchFor l) (Geometry.kind l)
      else set.raw l := PerLevel.get_ofFn ..

theorem mem_written {set : EntrySet} {l : Level} :
    l ∈ d.written set ↔ (d.mask.has l && set.valid.has l) = true := by
  simp [written, Level.mem_all]

/-- The visits of a walk once the edit has been made. -/
def rewriteAll (d : EntryEdit) (e : Engine) (visits : List Visit) : List Visit :=
  visits.map fun v => { v with raw := d.rewrite e v }

theorem map_level_rewriteAll (d : EntryEdit) (e : Engine) (visits : List Visit) :
    (d.rewriteAll e visits).map Visit.level = visits.map Visit.level := by
  rw [rewriteAll, List.map_map]
  rfl

theorem raw_rewriteAll (hd : (visits.map Visit.level).Nodup) (pid : Pid) (vaddr : VirtualAddress)
    (l : Level) :
    (EntrySet.ofVisits pid vaddr (d.rewriteAll e visits)).raw l =
      (d.rewritten e (EntrySet.ofVisits pid vaddr visits)).raw l := by
  have hd' : ((d.rewriteAll e visits).map Visit.level).Nodup := by rwa [map_level_rewriteAll]
  rw [raw_rewritten]
  by_cases hl : l ∈ visits.map Visit.level
  case pos =>
    obtain ⟨v, hv, rfl⟩ := List.mem_map.mp hl
    have hmem : ({ v with raw := d.rewrite e v } : Visit) ∈ d.rewriteAll e visits :=
      List.mem_map_of_mem hv
    have hnew : (EntrySet.ofVisits pid vaddr (d.rewriteAll e visits)).raw v.level =
        d.rewrite e v := EntrySet.raw_ofVisits hd' hmem
    have hwritten : v.level ∈ d.written (EntrySet.ofVisits pid vaddr visits) ↔
        (d.mask.has v.level && v.valid) = true := by
      rw [mem_written, Engine.has_valid_ofVisits hd hv]
    rw [hnew, EntrySet.raw_ofVisits hd hv]
    simp only [rewrite, hwritten]
  case neg =>
    -- a level that was not visited is not written and reads as zero
    have hnot : ∀ v ∈ visits, v.level ≠ l := fun v hv hvl => hl (hvl ▸ List.mem_map_of_mem hv)
    have hnot' : ∀ v ∈ d.rewriteAll e visits, v.level ≠ l := by
      intro v hv hvl
      have hmem : l ∈ (d.rewriteAll e visits).map Visit.level := hvl ▸ List.mem_map_of_mem hv
      rw [map_level_rewriteAll] at hmem
      exact hl hmem
    have hunwritten : ¬ l ∈ d.written (EntrySet.ofVisits pid vaddr visits) := by
      rw [mem_written, ← Engine.isSome_reached?, Bool.and_eq_true]
      rintro ⟨_, hsome⟩
      obtain ⟨v, hv⟩ := Option.isSome_iff_exists.mp hsome
      obtain ⟨hmem, hlevel, _⟩ := Engine.reached?_eq_some hv
      exact hnot v hmem hlevel
    rw [if_neg hunwritten, EntrySet.raw_ofVisits_of_not_mem hnot,
      EntrySet.raw_ofVisits_of_not_mem hnot']

theorem ofVisits_rewriteAll (hd : (visits.map Visit.level).Nodup) (pid : Pid)
    (vaddr : VirtualAddress) :
    EntrySet.ofVisits pid vaddr (d.rewriteAll e visits) =
      d.rewritten e (EntrySet.ofVisits pid vaddr visits) := by
  apply EntrySet.ext_raw
  case pid =>
    rw [EntrySet.pid_ofVisits]
    exact (EntrySet.pid_ofVisits visits).symm
  case vaddr =>
    rw [EntrySet.vaddr_ofVisits]
    exact (EntrySet.vaddr_ofVisits visits).symm
  case raw => exact raw_rewriteAll hd pid vaddr
  case valid =>
    show _ = (EntrySet.ofVisits pid vaddr visits).valid
    rw [EntrySet.valid_ofVisits, EntrySet.valid_ofVisits, rewriteAll, List.filter_map,
      List.map_map]
    rfl

theorem lastStore?_slot (hlevels : (visits.map Visit.level).Nodup)
    (hslots : (visits.map Visit.slot).Nodup) (hv : v ∈ visits) :
    Memory.lastStore? (e.storesAt visits d.mask d.patchFor Level.all) v.slot =
      if d.mask.has v.level && v.valid then some (d.rewrite e v) else none := by
  -- a store to this slot is the one for this visit
  have hstore : ∀ s ∈ e.storesAt visits d.mask d.patchFor Level.all, s.1 = v.slot →
      (d.mask.has v.level && v.valid) = true ∧ s.2 = d.rewrite e v := by
    intro s hs hslot
    obtain ⟨l, _, hsome⟩ := List.mem_filterMap.mp hs
    split at hsome
    · rename_i hmask
      obtain ⟨u, hu, rfl⟩ := Option.map_eq_some_iff.mp hsome
      obtain ⟨hmem, rfl, hvalid⟩ := Engine.reached?_eq_some hu
      have huv : u = v := List.inj_on_of_nodup_map hslots hmem hv hslot
      subst huv
      have hsel : (d.mask.has u.level && u.valid) = true := by simp [hmask, hvalid]
      exact ⟨hsel, by simp only [rewrite, hsel, if_true]⟩
    · cases hsome
  by_cases hsel : (d.mask.has v.level && v.valid) = true
  · rw [if_pos hsel]
    refine Memory.lastStore?_eq_some ?_ fun s hs hslot => (hstore s hs hslot).2
    obtain ⟨hmask, hvalid⟩ := Bool.and_eq_true_iff.mp hsel
    refine List.mem_filterMap.mpr ⟨v.level, Level.mem_all _, ?_⟩
    rw [if_pos hmask, Engine.reached?_of_mem hlevels hv, if_pos hvalid, Option.map_some, rewrite,
      if_pos hsel]
  · rw [if_neg hsel]
    exact Memory.lastStore?_eq_none fun s hs hslot => hsel (hstore s hs hslot).1

theorem sameWay_rewrite {memory : Memory} (hf : e.Faithful memory v) (hl : v.level ≠ Level.last)
    (hkeep : (d.mask.has v.level && v.valid) = true →
      (∀ frame, e.arch.child? v.raw = some frame → e.arch.child? (d.rewrite e v) = some frame) ∧
        (e.arch.isHugeLeaf v.raw = true → e.arch.isHugeLeaf (d.rewrite e v) = true)) :
    e.SameWay v (d.rewrite e v) := by
  have hkind : Geometry.kind v.level = .directory := if_neg hl
  by_cases hsel : (d.mask.has v.level && v.valid) = true
  · obtain ⟨hchild, hleaf⟩ := hkeep hsel
    have hpresent : e.arch.isPresent .directory v.raw = true := by
      have hvalid := hf.valid_eq
      rw [(Bool.and_eq_true_iff.mp hsel).2, hkind] at hvalid
      simpa [hl] using hvalid.symm
    rcases Architecture.child?_or_isHugeLeaf hpresent with ⟨frame, hframe⟩ | hhuge
    · obtain ⟨h1, h2, h3⟩ := Architecture.tableAddress_of_child? hframe
      obtain ⟨h1', h2', h3'⟩ := Architecture.tableAddress_of_child? (hchild frame hframe)
      constructor
      case present => rw [hkind, h1, h1']
      case huge => rw [h2, h2']
      case table => exact fun _ => by rw [h3, h3']
    · obtain ⟨h1, h2⟩ := Architecture.isHuge_of_isHugeLeaf hhuge
      obtain ⟨h1', h2'⟩ := Architecture.isHuge_of_isHugeLeaf (hleaf hhuge)
      constructor
      case present => rw [hkind, h1, h1']
      case huge => rw [h2, h2']
      case table => exact fun hnot => by simp [h2] at hnot
  · have hraw : d.rewrite e v = v.raw := if_neg hsel
    rw [hraw]
    exact ⟨rfl, rfl, fun _ => rfl⟩

/-! ### The walk after an edit -/

variable {memory : Memory} {root : PhysicalAddress} {vaddr : VirtualAddress}

/-- Over a file of zeros nothing is reached, so that nothing is written there. -/
theorem backing_ne_zeros (hu : e.geometry.isUsable = true)
    (hv : e.visited vaddr memory root = .ok visits) {s : PhysicalAddress × Word}
    (hs : s ∈ e.storesAt visits d.mask d.patchFor Level.all) : memory.backing ≠ .file .zeros := by
  let x : Translation := ⟨e, memory, root, vaddr⟩
  obtain ⟨l, _, v, hr, _⟩ := Engine.mem_storesAt hs
  obtain ⟨i, hi, hread, _, rfl, hvalid, _⟩ :=
    Translation.reached_visit (x := x) hu hv hr
  exact (Translation.inside_of_valid (x := x) hu hi hread hvalid).1

theorem readWord_rewrite (hu : e.geometry.isUsable = true)
    (hv : e.visited vaddr memory root = .ok visits) (hslots : (visits.map Visit.slot).Nodup)
    (hok : (Memory.writeWords (e.storesAt visits d.mask d.patchFor Level.all) memory).1 = none)
    (hmem : v ∈ visits) :
    (Memory.writeWords (e.storesAt visits d.mask d.patchFor Level.all) memory).2.readWord v.slot =
      .ok (d.rewrite e v) := by
  have hlevels : (visits.map Visit.level).Nodup :=
    Translation.nodup_visited (x := ⟨e, memory, root, vaddr⟩) hu hv
  have hfaithful := e.faithful_visited vaddr hv
  have hstores : ∀ s ∈ e.storesAt visits d.mask d.patchFor Level.all,
      memory.backing ≠ .file .zeros ∧ memory.Readable s.1 ∧ s.1.Aligned := by
    intro s hs
    have hz : memory.backing ≠ .file .zeros := backing_ne_zeros hu hv hs
    obtain ⟨l, _, u, hr, rfl⟩ := Engine.mem_storesAt hs
    have hmet := hfaithful u (Engine.reached?_eq_some hr).1
    exact ⟨hz, ⟨u.raw, hmet.read⟩, hmet.aligned⟩
  rw [Memory.readWord_writeWords _ _ hstores hok (hfaithful v hmem).aligned,
    lastStore?_slot hlevels hslots hmem]
  by_cases hsel : (d.mask.has v.level && v.valid) = true
  · rw [if_pos hsel]
  · rw [if_neg hsel, rewrite, if_neg hsel]
    exact (hfaithful v hmem).read

theorem visited_rewrite (hu : e.geometry.isUsable = true)
    (hv : e.visited vaddr memory root = .ok visits) (hslots : (visits.map Visit.slot).Nodup)
    (hok : (Memory.writeWords (e.storesAt visits d.mask d.patchFor Level.all) memory).1 = none)
    (hkeep : d.KeepsWay e visits) :
    e.visited vaddr
        (Memory.writeWords (e.storesAt visits d.mask d.patchFor Level.all) memory).2 root =
      .ok (d.rewriteAll e visits) := by
  refine e.visited_rewritten vaddr (d.rewrite e) hv ?_ ?_
  · exact fun v hmem => readWord_rewrite hu hv hslots hok hmem
  · intro v hmem
    by_cases hl : v.level = Level.last
    · exact .inl hl
    · exact .inr (sameWay_rewrite (e.faithful_visited vaddr hv v hmem) hl (hkeep v hmem hl))

theorem eq_last_of_selected (hm : d.mask = .single .pte) {l : Level} {valid : Bool}
    (h : (d.mask.has l && valid) = true) : l = .pte := by
  rw [hm] at h
  exact LevelMask.eq_last_of_has (Bool.and_eq_true_iff.mp h).1

/-- An edit of the last level alone leaves every walk its way. -/
theorem keepsWay_of_mask (hm : d.mask = .single .pte) : d.KeepsWay e visits :=
  fun _ _ hl hsel => absurd (eq_last_of_selected hm hsel) hl

theorem mem_written_of_changed {set : EntrySet} (hm : d.mask = .single .pte)
    (h : (LevelMask.ofLevels (d.written set)).isEmpty = false) : .pte ∈ d.written set := by
  have hne : d.written set ≠ [] := by
    intro hnil
    rw [hnil] at h
    cases h
  obtain ⟨l, hl⟩ := List.exists_mem_of_ne_nil _ hne
  exact eq_last_of_selected hm (mem_written.mp hl) ▸ hl

/-- What is seen of an edit afterwards, where the walk before it paid these visits. -/
structure Visible (d : EntryEdit) (e : Engine) (vaddr : VirtualAddress) (pid : Pid)
    (visits : List Visit) (report : EditReport) (others : Bystander) (after : Machine) : Prop where
  resolved : d.KeepsWay e visits → ∃ es m',
    (e.resolve vaddr pid).runOn others after =
      some ⟨es, m', .ok (d.rewritten e (.ofVisits pid vaddr visits))⟩
  bit_set : ∀ b, d = .setLastBit b → report = .changed true → ∃ es m',
    (e.lastBit? vaddr pid b).runOn others after = some ⟨es, m', .ok (some true)⟩
  bit_cleared : ∀ b, d = .clearLastBit b → report = .changed true → ∃ es m',
    (e.lastBit? vaddr pid b).runOn others after = some ⟨es, m', .ok (some false)⟩
  pfn_set : ∀ p, d = .setLastPfn p → report = .changed true → ∃ es m' q,
    (e.lastPfn? vaddr pid).runOn others after = some ⟨es, m', .ok (some q)⟩ ∧
      q.toNat = p.toNat % 2 ^ e.arch.pfnWidth

/-- All that is seen of an edit follows from what the next resolution reports. -/
theorem visible_of_resolved {others : Bystander} {after : Machine} {pid : Pid}
    (h : d.KeepsWay e visits → ∃ es m', (e.resolve vaddr pid).runOn others after =
      some ⟨es, m', .ok (d.rewritten e (.ofVisits pid vaddr visits))⟩) :
    d.Visible e vaddr pid visits
      (d.report (.ofLevels (d.written (.ofVisits pid vaddr visits)))) others after := by
  let set := EntrySet.ofVisits pid vaddr visits
  let new := e.arch.encode (set.raw .pte) (d.patchFor .pte) .page
  -- whatever is read off the entry of the last level is read off the entry the edit wrote
  have hread : ∀ {β : Type} (f : Word → β), d.mask = .single .pte →
      (!(LevelMask.ofLevels (d.written set)).isEmpty) = true →
      ∃ es m', (e.resolve vaddr pid >>= fun set => pure ((set.entry? .pte).map f)).runOn others
        after = some ⟨es, m', .ok (some (f new))⟩ := by
    intro β f hmask hchanged
    obtain ⟨es, m', hrun⟩ := h (keepsWay_of_mask hmask)
    have hw : .pte ∈ d.written set := mem_written_of_changed hmask (by simpa using hchanged)
    have hentry : EntrySet.entry? (d.rewritten e set) .pte = some new := by
      have hvalid : set.valid.has .pte = true := (Bool.and_eq_true_iff.mp (mem_written.mp hw)).2
      have hraw : (d.rewritten e set).raw .pte = new := by
        rw [raw_rewritten, if_pos hw]
        rfl
      unfold EntrySet.entry?
      rw [hraw]
      exact if_pos hvalid
    have hpure := Op.runOn_bind_ok others hrun fun set => pure ((set.entry? .pte).map f)
    rw [hentry, Option.map_some] at hpure
    exact ⟨_, _, hpure⟩
  constructor
  case resolved => exact h
  case bit_set =>
    rintro b rfl hreport
    have hbit : Word.bit new (b.toNat % 64) = true := e.arch.bit_encode_setBit ..
    have hrun := hread (Word.bit · (b.toNat % 64)) rfl (EditReport.changed.inj hreport)
    rwa [hbit] at hrun
  case bit_cleared =>
    rintro b rfl hreport
    have hbit : Word.bit new (b.toNat % 64) = false := e.arch.bit_encode_clearBit ..
    have hrun := hread (Word.bit · (b.toNat % 64)) rfl (EditReport.changed.inj hreport)
    rwa [hbit] at hrun
  case pfn_set =>
    rintro p rfl hreport
    obtain ⟨es, m', hrun⟩ := hread e.arch.pfn rfl (EditReport.changed.inj hreport)
    exact ⟨es, m', e.arch.pfn new, hrun, e.arch.toNat_pfn_encode (set.raw .pte) p⟩

theorem perform_visible {α : Type} {w : World α} (hw : w.Reachable) {e : Engine}
    (hg : e.geometry.Constructed) {others : Bystander} (ho : others.Honest) (d : EntryEdit)
    {vaddr : VirtualAddress} {pid : Pid} {es : List Event} {after : Machine} {report : EditReport}
    (h : (d.perform e vaddr pid).runOn others w.machine = some ⟨es, after, .ok report⟩)
    (hsame : after.locks.processes.find? pid = w.machine.locks.processes.find? pid)
    {others' : Bystander} (ho' : others'.Honest) :
    ∃ es₀ es₁ before visits,
      (e.walk vaddr pid).runOn others w.machine = some ⟨es₀, before, .ok visits⟩ ∧
      (e.resolve vaddr pid).runOn others w.machine =
        some ⟨es₁, before, .ok (.ofVisits pid vaddr visits)⟩ ∧
      ((visits.map Visit.slot).Nodup → d.Visible e vaddr pid visits report others' after) := by
  rw [perform_eq, Op.runOn_bind] at h
  obtain ⟨⟨es', after', reply⟩, hedit, hfollow⟩ := Option.bind_eq_some_iff.mp h
  cases reply with
  | error err => cases hfollow
  | ok written =>
    cases hfollow
    obtain ⟨space, held, visits, hgr, hv, hok, hafter, hwritten⟩ := Engine.edit_ok ho hedit
    obtain ⟨es₀, hwalk⟩ := e.runOn_walk vaddr others hgr
    obtain ⟨es₁, hbefore⟩ := e.runOn_resolve vaddr others hgr
    rw [hv] at hwalk hbefore
    refine ⟨es₀, es₁, _, visits, hwalk, hbefore, fun hslots => ?_⟩
    have hneutral : (e.edit vaddr pid d.mask d.patchFor).Neutral others pid w.machine :=
      Op.neutral_holding (fun _ => (OpLogic.calm pid).editInside e vaddr d.mask d.patchFor)
        fun _ => World.count_pos hw
    have hopen := hneutral.enterable ho hedit hgr hsame others'
    obtain ⟨held', hgr'⟩ := LockTable.grants_of_enterable hopen
    have hroot : held'.root space = held.root space := by
      rw [LockTable.root_of_enterable ho' hopen hgr', hafter]
      exact Engine.root_afterEdit held pid space
    rw [hwritten, d.writtenAt_eq visits pid vaddr]
    refine visible_of_resolved fun hkeep => ?_
    obtain ⟨es₂, hresolve⟩ := e.runOn_resolve vaddr others' hgr'
    have hmemory : after'.memory = (Memory.writeWords
        (e.storesAt visits d.mask d.patchFor Level.all) w.machine.memory).2 := by rw [hafter]
    have hlevels : (visits.map Visit.level).Nodup := Translation.nodup_visited
      (x := ⟨e, w.machine.memory, held.root space, vaddr⟩) hg.isUsable hv
    rw [hroot, hmemory, visited_rewrite hg.isUsable hv hslots hok hkeep, Except.map,
      ofVisits_rewriteAll hlevels] at hresolve
    exact ⟨_, _, hresolve⟩

theorem perform_visible_selfMapped : ∃ es after,
    World.Reachable (⟨.selfMapped, [], []⟩ : World Unit) ∧
      ((setLastBit 3).perform ⟨.x86_64, .smallest⟩ ⟨0x10⟩ 1).runOn .yielding Machine.selfMapped =
        some ⟨es, after, .ok (.changed true)⟩ ∧
      after.locks.processes.find? 1 = Machine.selfMapped.locks.processes.find? 1 ∧
      ∃ visits, visits.map Visit.slot = [⟨0x1000⟩, ⟨0x1008⟩] ∧
        (setLastBit 3).KeepsWay ⟨.x86_64, .smallest⟩ visits ∧
        (setLastBit 3).Visible ⟨.x86_64, .smallest⟩ ⟨0x10⟩ 1 visits (.changed true) .yielding
          after := by
  have hedit : ((setLastBit 3).perform ⟨.x86_64, .smallest⟩ ⟨0x10⟩ 1).runOn .yielding
      Machine.selfMapped = some ⟨_, _, .ok (.changed true)⟩ := rfl
  obtain ⟨_, _, _, visits, hwalk, _, hvisible⟩ := perform_visible World.reachable_selfMapped
    Geometry.constructed_smallest Bystander.honest_yielding (.setLastBit 3) hedit rfl
    Bystander.honest_yielding
  have hslots : visits.map Visit.slot = [⟨0x1000⟩, ⟨0x1008⟩] := by
    obtain rfl := Except.ok.inj (congrArg Effect.reply (Option.some.inj hwalk))
    rfl
  have hdistinct : (visits.map Visit.slot).Nodup := by
    rw [hslots]
    decide
  exact ⟨_, _, World.reachable_selfMapped, hedit, rfl, visits, hslots, keepsWay_of_mask rfl,
    hvisible hdistinct⟩

end EntryEdit

end Paging
