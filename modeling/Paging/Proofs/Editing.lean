import Paging.Engine.Edit
import Paging.Proofs.Recording
import Paging.Proofs.Storing
import Paging.Proofs.Walking

/-!
# Runs of edits

An edit enters its space, walks, writes a word at every selected level that the walk reached
(`Engine.storesAt`) and leaves. Its run is given by how entering, walking and writing end; an edit
that succeeds has come through all three (`Engine.edit_ok`).
-/

namespace Paging

def answerUnless {α : Type} (refused : Option Error) (a : α) : Except Error α :=
  match refused with
  | none => .ok a
  | some err => .error err

namespace Engine

variable (e : Engine) (others : Bystander) (visits : List Visit) (mask : LevelMask)
  (patchFor : Level → EntryPatch)

/-- The words that an edit writes at some levels, each with its slot. -/
def storesAt (ls : List Level) : List (PhysicalAddress × Word) :=
  ls.filterMap fun l =>
    if mask.has l then
      (reached? visits l).map fun v =>
        (v.slot, e.arch.encode v.raw (patchFor l) (Geometry.kind l))
    else none

def writtenAt (ls : List Level) : List Level :=
  ls.filter fun l => mask.has l && (reached? visits l).isSome

/-! ### Runs -/

/-- Writing the levels is writing their words in order; the first that is refused ends it. -/
theorem runOn_writeLevels (ls : List Level) (written : LevelMask) (m : Machine) :
    ∃ es, (e.writeLevels visits mask patchFor ls written).runOn others m =
      let out := Memory.writeWords (e.storesAt visits mask patchFor ls) m.memory
      some ⟨es, { m with memory := out.2 },
        answerUnless out.1 ((writtenAt visits mask ls).foldl LevelMask.insert written)⟩ := by
  induction ls generalizing written m with
  | nil => exact ⟨[], rfl⟩
  | cons l rest ih =>
    cases hm : mask.has l with
    | false =>
      obtain ⟨es, hrun⟩ := ih written m
      refine ⟨es, ?_⟩
      simpa [writeLevels, storesAt, writtenAt, hm] using hrun
    | true =>
      cases hv : reached? visits l with
      | none =>
        obtain ⟨es, hrun⟩ := ih written m
        have hstores : e.storesAt visits mask patchFor (l :: rest) =
            e.storesAt visits mask patchFor rest := by
          simp [storesAt, hm, hv]
        have hwritten : writtenAt visits mask (l :: rest) = writtenAt visits mask rest := by
          simp [writtenAt, hm, hv]
        simp only [writeLevels, hm, hv, Bool.not_true, Bool.false_eq_true, if_false, hstores,
          hwritten]
        rw [Op.runOn_bind_ok others (Op.runOn_note others (.levelSkipped l) m), hrun]
        exact ⟨_, rfl⟩
      | some v =>
        let raw := e.arch.encode v.raw (patchFor l) (Geometry.kind l)
        have hwrite := Op.runOn_writeWord others v.slot raw m
        have hstores : e.storesAt visits mask patchFor (l :: rest) =
            (v.slot, raw) :: e.storesAt visits mask patchFor rest := by
          simp [storesAt, hm, hv, raw]
        have hwritten : writtenAt visits mask (l :: rest) = l :: writtenAt visits mask rest := by
          simp [writtenAt, hm, hv]
        simp only [writeLevels, hm, hv, Bool.not_true, Bool.false_eq_true, if_false, hstores,
          hwritten, Memory.writeWords, List.foldl_cons]
        rw [Op.runOn_bind_ok others (Op.runOn_note others (.levelUpdated l v.slot v.raw raw) m)]
        cases hw : m.memory.writeWord v.slot raw with
        | error r =>
          simp only [hw] at hwrite
          rw [Op.runOn_bind_error others hwrite]
          exact ⟨_, rfl⟩
        | ok memory =>
          simp only [hw] at hwrite
          obtain ⟨es, hrun⟩ := ih (written.insert l) { m with memory := memory }
          rw [Op.runOn_bind_ok others hwrite, hrun]
          exact ⟨_, rfl⟩

variable {e others visits mask patchFor} {m : Machine} {pid : Pid} {space : SpaceId}
  {held : LockTable} {vaddr : VirtualAddress} {k : Nat}

/-- The table once an edit is over: its walk and then it itself have given back their reference. -/
def afterEdit (held : LockTable) (pid : Pid) : LockTable :=
  (((held.start pid).table.release pid).2.release pid).2

/-- The walk of an edit enters the space that the edit has just entered, so it reads the root that
the edit found. -/
theorem grants_nested (others : Bystander) (hf : held.holds.find? pid = some ⟨space, k + 1, none⟩)
    (hc : k + 2 < LockTable.countLimit) :
    held.Grants others pid space (held.start pid).table ∧
      (held.start pid).table.root space = held.root space := by
  have hen := LockTable.enterAlone_held others hf rfl hc
  have hstart : (held.start pid).table =
      { held with holds := held.holds.insert pid ⟨space, k + 2, none⟩ } := by
    simp [LockTable.start, hf, hc]
  rw [hstart]
  exact ⟨⟨[], hen⟩, rfl⟩

theorem runOn_edit_granted {events : List Event}
    (hen : m.locks.enterAlone others pid = some ⟨events, held, .ok space⟩) :
    (e.edit vaddr pid mask patchFor).runOn others m =
      (Op.runOn others (e.walk vaddr pid >>= fun visits =>
        ExceptT.lift (e.writeLevels visits mask patchFor Level.all .none).run >>= fun result =>
          Op.flush vaddr >>= fun _ => ExceptT.mk (pure result)) { m with locks := held }).map
        fun e => (e.released pid).after events :=
  Op.runOn_holding_granted others _ hen rfl

theorem runOn_edit_overflow (hgr : m.locks.Grants others pid space held)
    (hf : held.holds.find? pid = some ⟨space, k + 1, none⟩)
    (hc : ¬ k + 2 < LockTable.countLimit) :
    ∃ es, (e.edit vaddr pid mask patchFor).runOn others m =
      some ⟨es, { m with locks := (held.release pid).2 }, .error (.lockOverflow pid)⟩ := by
  obtain ⟨events, hen⟩ := hgr
  have hrun : (e.edit vaddr pid mask patchFor).runOn others m = _ := runOn_edit_granted hen
  have hnested := LockTable.enterAlone_overflow others hf rfl hc
  have hwalk : (e.walk vaddr pid).runOn others { m with locks := held } = _ :=
    Op.runOn_holding_refused others _ hnested rfl
  rw [Op.runOn_bind_error others hwalk] at hrun
  exact ⟨_, hrun⟩

theorem runOn_edit_failed (hgr : m.locks.Grants others pid space held)
    (hf : held.holds.find? pid = some ⟨space, k + 1, none⟩) (hc : k + 2 < LockTable.countLimit)
    {err : Error} (hv : e.visited vaddr m.memory (held.root space) = .error err) :
    ∃ es, (e.edit vaddr pid mask patchFor).runOn others m =
      some ⟨es, { m with locks := afterEdit held pid }, .error err⟩ := by
  obtain ⟨events, hen⟩ := hgr
  have hrun : (e.edit vaddr pid mask patchFor).runOn others m = _ := runOn_edit_granted hen
  obtain ⟨hnested, hroot⟩ := grants_nested others hf hc
  obtain ⟨es, hwalk⟩ := e.runOn_walk vaddr others (m := { m with locks := held }) hnested
  simp only [hroot, hv] at hwalk
  rw [Op.runOn_bind_error others hwalk] at hrun
  exact ⟨_, hrun⟩

theorem runOn_edit (hgr : m.locks.Grants others pid space held)
    (hf : held.holds.find? pid = some ⟨space, k + 1, none⟩) (hc : k + 2 < LockTable.countLimit)
    (hv : e.visited vaddr m.memory (held.root space) = .ok visits) :
    ∃ es, (e.edit vaddr pid mask patchFor).runOn others m =
      let out := Memory.writeWords (e.storesAt visits mask patchFor Level.all) m.memory
      some ⟨es, { m with locks := afterEdit held pid, memory := out.2 },
        answerUnless out.1 (.ofLevels (writtenAt visits mask Level.all))⟩ := by
  obtain ⟨events, hen⟩ := hgr
  have hrun : (e.edit vaddr pid mask patchFor).runOn others m = _ := runOn_edit_granted hen
  obtain ⟨hnested, hroot⟩ := grants_nested others hf hc
  obtain ⟨es, hwalk⟩ := e.runOn_walk vaddr others (m := { m with locks := held }) hnested
  simp only [hroot, hv] at hwalk
  obtain ⟨es', hwrite⟩ := e.runOn_writeLevels others visits mask patchFor Level.all .none
    { m with locks := ((held.start pid).table.release pid).2 }
  rw [Op.runOn_bind_ok others hwalk, Op.runOn_bind_ok others (Op.runOn_lift_run others hwrite),
    Op.runOn_bind_ok others (Op.runOn_flush others vaddr _)] at hrun
  exact ⟨_, hrun⟩

/-- An edit ends before it writes, because one of its two references is refused or because its walk
fails as resolving the address would, or it comes to the point where it writes. -/
theorem edit_cases (ho : others.Honest) {eff : Effect (Except Error LevelMask)}
    (h : (e.edit vaddr pid mask patchFor).runOn others m = some eff) :
    (eff.machine.memory = m.memory ∧ ∃ err, eff.reply = .error err ∧
      (err = .lockOverflow pid ∨
        ∃ es after, (e.resolve vaddr pid).runOn others m = some ⟨es, after, .error err⟩)) ∨
    ∃ space held visits, m.locks.Grants others pid space held ∧
      e.visited vaddr m.memory (held.root space) = .ok visits ∧
      eff.machine = { m with
        locks := afterEdit held pid
        memory := (Memory.writeWords (e.storesAt visits mask patchFor Level.all) m.memory).2 } ∧
      eff.reply =
        answerUnless (Memory.writeWords (e.storesAt visits mask patchFor Level.all) m.memory).1
          (.ofLevels (writtenAt visits mask Level.all)) := by
  cases hen : m.locks.enterAlone others pid with
  | none =>
    have hrun : (e.edit vaddr pid mask patchFor).runOn others m = none :=
      Op.runOn_holding_none others _ hen
    rw [hrun] at h
    cases h
  | some now =>
    obtain ⟨events, held, reply⟩ := now
    cases reply with
    | error err =>
      have hrun : (e.edit vaddr pid mask patchFor).runOn others m = _ :=
        Op.runOn_holding_refused others _ hen rfl
      have hwalk : (e.walk vaddr pid).runOn others m = _ :=
        Op.runOn_holding_refused others _ hen rfl
      rw [hrun] at h
      cases h
      exact .inl ⟨rfl, err, rfl, .inr ⟨_, _, Op.runOn_bind_error others hwalk _⟩⟩
    | ok space =>
      have hgr : m.locks.Grants others pid space held := ⟨events, hen⟩
      obtain ⟨k, hf⟩ := LockTable.published_of_grants ho hgr
      by_cases hc : k + 2 < LockTable.countLimit
      · cases hv : e.visited vaddr m.memory (held.root space) with
        | error err =>
          obtain ⟨es, hrun⟩ : ∃ es, (e.edit vaddr pid mask patchFor).runOn others m = _ :=
            runOn_edit_failed hgr hf hc hv
          obtain ⟨es', hresolve⟩ := e.runOn_resolve vaddr others hgr
          rw [hv] at hresolve
          rw [hrun] at h
          cases h
          exact .inl ⟨rfl, err, rfl, .inr ⟨_, _, hresolve⟩⟩
        | ok visits =>
          obtain ⟨es, hrun⟩ : ∃ es, (e.edit vaddr pid mask patchFor).runOn others m = _ :=
            runOn_edit hgr hf hc hv
          rw [hrun] at h
          cases h
          exact .inr ⟨space, held, visits, hgr, hv, rfl, rfl⟩
      · obtain ⟨es, hrun⟩ : ∃ es, (e.edit vaddr pid mask patchFor).runOn others m = _ :=
          runOn_edit_overflow hgr hf hc
        rw [hrun] at h
        cases h
        exact .inl ⟨rfl, _, rfl, .inl rfl⟩

theorem edit_ok (ho : others.Honest) {es : List Event} {after : Machine} {written : LevelMask}
    (h : (e.edit vaddr pid mask patchFor).runOn others m = some ⟨es, after, .ok written⟩) :
    ∃ space held visits, m.locks.Grants others pid space held ∧
      e.visited vaddr m.memory (held.root space) = .ok visits ∧
      (Memory.writeWords (e.storesAt visits mask patchFor Level.all) m.memory).1 = none ∧
      after = { m with
        locks := afterEdit held pid
        memory := (Memory.writeWords (e.storesAt visits mask patchFor Level.all) m.memory).2 } ∧
      written = .ofLevels (writtenAt visits mask Level.all) := by
  obtain ⟨_, err, hreply, _⟩ | ⟨space, held, visits, hgr, hv, hafter, hreply⟩ := edit_cases ho h
  · cases hreply
  · refine ⟨space, held, visits, hgr, hv, ?_⟩
    cases hw : (Memory.writeWords (e.storesAt visits mask patchFor Level.all) m.memory).1 with
    | some err =>
      rw [hw] at hreply
      cases hreply
    | none =>
      rw [hw] at hreply
      exact ⟨rfl, hafter, Except.ok.inj hreply⟩

/-- Every store goes to the slot of a visit. -/
theorem mem_storesAt {ls : List Level} {s : PhysicalAddress × Word}
    (hs : s ∈ e.storesAt visits mask patchFor ls) :
    ∃ l ∈ ls, ∃ v, reached? visits l = some v ∧
      s = (v.slot, e.arch.encode v.raw (patchFor l) (Geometry.kind l)) := by
  obtain ⟨l, hl, hsome⟩ := List.mem_filterMap.mp hs
  split at hsome
  · obtain ⟨v, hv, rfl⟩ := Option.map_eq_some_iff.mp hsome
    exact ⟨l, hl, v, hv, rfl⟩
  · cases hsome

theorem root_afterEdit (held : LockTable) (pid : Pid) (s : SpaceId) :
    (afterEdit held pid).root s = held.root s := by
  rw [afterEdit, LockTable.root_release, LockTable.root_release, LockTable.root_start]

end Engine

end Paging
