import Paging.CommandLine.Run

/-!
# Memory images among other files

The program opens its memory image under the first free number, works on a copy of the bytes and
puts them back under the path they came from if they have changed. Having the image open does not
lead that path elsewhere, unless it went through the number before anything was open there, so the
bytes come back to where they were and no other file changes (`Invocation.run_image`,
`FileTree.node?_kept`).
-/

namespace Paging.CommandLine

theorem Device.backing_openMemory {d : Device} {writable : Bool} {memory : Memory}
    (h : d.openMemory writable = .ok memory) : ∃ mode, memory.backing = .file mode := by
  cases d with
  | null | zero | full | stream _ =>
    cases h
    exact ⟨_, rfl⟩
  | terminal => cases h

namespace FileTree

variable {t : FileTree} {path : String} {place : Place} {bytes : Array UInt8}

/-- A path that leads to a file, in a tree where the process has nothing open yet. -/
structure Image (t : FileTree) (path : String) (place : Place) (bytes : Array UInt8) : Prop where
  found : ∃ a, t.approach path = .ok a ∧ a.slashed = false ∧ t.step a.directory a.name = .ok place
  file : t.node? place = some (.file bytes)
  unlinked : t.links.lookup (descriptor 3) = none
  unopened : t.node? (descriptor 3) = none

/-- The tree with a file open under the first number that is no stream's. -/
def opened (t : FileTree) (place : Place) : FileTree :=
  { t with links := (descriptor 3, place) :: t.links }

theorem node?_opened (t : FileTree) (place p : Place) : (t.opened place).node? p = t.node? p := rfl

/-! ### Ways that do not change -/

theorem step_opened (hl : t.links.lookup (descriptor 3) = none)
    (hn : t.node? (descriptor 3) = none) {p q : Place} {name : String}
    (h : t.step p name = .ok q) (hq : (t.node? q).isSome = true) :
    (t.opened place).step p name = .ok q := by
  unfold step at h ⊢
  cases hp : p.step name with
  | error why =>
    rw [hp] at h
    cases h
  | ok next =>
    rw [hp] at h
    simp only [Except.map, Except.ok.injEq] at h ⊢
    by_cases hnext : next = descriptor 3
    · -- nothing was there yet, so this way led nowhere
      subst hnext
      rw [hl] at h
      subst h
      rw [Option.getD_none, hn] at hq
      cases hq
    · have hb : (next == descriptor 3) = false := by simpa using hnext
      simp only [opened, List.lookup_cons, hb]
      exact h

theorem walk_opened (hl : t.links.lookup (descriptor 3) = none)
    (hn : t.node? (descriptor 3) = none) {names : List String} {p q : Place}
    (h : t.walk p names = .ok q) : (t.opened place).walk p names = .ok q := by
  induction names generalizing p with
  | nil => exact h
  | cons name names ih =>
    simp only [walk, bind, Except.bind] at h ⊢
    cases hs : t.step p name with
    | error why =>
      rw [hs] at h
      cases h
    | ok next =>
      simp only [hs] at h
      cases hnode : t.node? next with
      | none =>
        rw [hnode] at h
        cases h
      | some node =>
        rw [step_opened hl hn hs (by rw [hnode]; rfl)]
        simp only [node?_opened, hnode] at h ⊢
        cases node with
        | directory isSealed => exact ih h
        | file bytes | device d => cases h

theorem approach_opened (hl : t.links.lookup (descriptor 3) = none)
    (hn : t.node? (descriptor 3) = none) {a : Approach} (h : t.approach path = .ok a) :
    (t.opened place).approach path = .ok a := by
  unfold approach at h ⊢
  simp only [bind, Except.bind, pure, Except.pure, throw, throwThe, MonadExceptOf.throw] at h ⊢
  split at h
  · cases h
  · rename_i hlength
    have hworking : (t.opened place).working = t.working := rfl
    rw [if_neg hlength, hworking]
    split at h
    · cases h
    · rename_i directory hwalk
      rw [walk_opened hl hn hwalk]
      exact h

/-! ### Opening and putting back -/

theorem Image.ne_root (h : t.Image path place bytes) : place ≠ [] := by
  rintro rfl
  cases h.file

theorem Image.openMemory_eq (h : t.Image path place bytes) (writable : Bool) :
    t.openMemory path writable =
      .ok (⟨.file (if writable then .readWrite else .readOnly), bytes⟩, t.opened place) := by
  obtain ⟨a, happroach, hslash, hstep⟩ := h.found
  simp only [openMemory, happroach, hstep, h.file, hslash, bind, Except.bind, pure, Except.pure,
    Bool.false_eq_true, if_false]
  rfl

/-- Whatever is opened as memory is a file. -/
theorem backing_openMemory {opened : FileTree} {writable : Bool} {memory : Memory}
    (h : t.openMemory path writable = .ok (memory, opened)) :
    ∃ mode, memory.backing = .file mode := by
  simp only [openMemory, bind, Except.bind, pure, Except.pure] at h
  cases happroach : t.approach path with
  | error why =>
    rw [happroach] at h
    cases h
  | ok a =>
    simp only [happroach] at h
    cases hstep : t.step a.directory a.name with
    | error why =>
      rw [hstep] at h
      cases h
    | ok place =>
      simp only [hstep] at h
      split at h
      · cases h
      · split at h <;> cases h
        exact ⟨_, rfl⟩
      · split at h <;> cases h
        exact ⟨_, rfl⟩
      · rename_i d _
        split at h
        · cases h
        · cases hdevice : d.openMemory writable with
          | error why =>
            rw [hdevice] at h
            cases h
          | ok found =>
            rw [hdevice] at h
            cases h
            exact Device.backing_openMemory hdevice

theorem Image.save_opened (h : t.Image path place bytes) (after : Array UInt8) :
    (t.opened place).save path after = .ok ((t.opened place).put place (.file after)) := by
  obtain ⟨a, happroach, hslash, hstep⟩ := h.found
  have hthere : (t.opened place).approach path = .ok a :=
    approach_opened h.unlinked h.unopened happroach
  have hlast : (t.opened place).step a.directory a.name = .ok place :=
    step_opened h.unlinked h.unopened hstep (by rw [h.file]; rfl)
  simp only [save, hthere, hlast, node?_opened, h.file, hslash, bind, Except.bind, pure,
    Except.pure, Bool.false_eq_true, if_false]

/-- The tree once a run has put back the bytes of its image, if they have changed. -/
def kept (t : FileTree) (place : Place) (bytes after : Array UInt8) : FileTree :=
  if after != bytes then (t.opened place).put place (.file after) else t.opened place

theorem Image.node?_kept (h : t.Image path place bytes) (after : Array UInt8) (p : Place) :
    (t.kept place bytes after).node? p =
      if p = place then some (.file after) else t.node? p := by
  unfold kept
  by_cases hafter : after = bytes
  · subst hafter
    rw [if_neg (by simp)]
    split
    · rename_i hp
      subst hp
      exact h.file
    · rfl
  · rw [if_pos (by simpa using hafter), node?_put _ h.ne_root, node?_opened]

theorem Image.node?_kept_same (h : t.Image path place bytes) (p : Place) :
    (t.kept place bytes bytes).node? p = t.node? p := by
  rw [h.node?_kept]
  split
  · rename_i hp
    subst hp
    exact h.file.symm
  · rfl

/-! ### The files of a tree -/

theorem access_openMemory (t : FileTree) (path : String) (writable : Bool) :
    (access.openMemory path writable).run t =
      match t.openMemory path writable with
      | .ok (memory, opened) => (.ok memory, opened)
      | .error why => (.error why, t) := by
  show StateT.run (match t.openMemory path writable with
    | Except.ok (memory, t) => do set t; return Except.ok memory
    | Except.error why => return Except.error why : StateM FileTree _) t = _
  cases t.openMemory path writable <;> rfl

theorem access_keep (t : FileTree) (path : String) (bytes : Array UInt8) :
    (access.keep path bytes).run t = ((), (t.save path bytes).toOption.getD t) := rfl

theorem access_save (t : FileTree) (path : String) (bytes : Array UInt8) :
    (access.save path bytes).run t =
      match t.save path bytes with
      | .ok saved => (.ok (), saved)
      | .error why => (.error why, t) := by
  show StateT.run (match t.save path bytes with
    | Except.ok t => do set t; return Except.ok ()
    | Except.error why => return Except.error why : StateM FileTree _) t = _
  cases t.save path bytes <;> rfl

end FileTree

namespace Invocation

variable (i : Invocation)

/-- An image as the command has it open: writable only if the command writes. -/
def image (bytes : Array UInt8) : Memory :=
  ⟨.file (if i.command.writes then .readWrite else .readOnly), bytes⟩

/-- What a run makes of the report on its command, in the tree that has the bytes back. -/
def finish (report : Report) (kept : FileTree) : Outcome × FileTree :=
  match report.result with
  | .error failure => (i.outcome report.notices (.error failure), kept)
  | .ok (.lines lines) => (i.outcome report.notices (.ok lines), kept)
  | .ok (.file path page) =>
    match kept.save path page.toArray with
    | .ok saved => (i.outcome report.notices (.ok []), saved)
    | .error why => (i.outcome report.notices (.error (.cannotSave why)), kept)

variable {i} {t : FileTree} {place : Place} {bytes : Array UInt8}

theorem run_finish (report : Report) (t : FileTree) :
    StateT.run (match report.result with
      | .error failure => return i.outcome report.notices (.error failure)
      | .ok (.lines lines) => return i.outcome report.notices (.ok lines)
      | .ok (.file path page) => do
        match ← FileTree.access.save path page.toArray with
        | .ok () => return i.outcome report.notices (.ok [])
        | .error why => return i.outcome report.notices (.error (.cannotSave why)) :
      StateM FileTree Outcome) t = i.finish report t := by
  unfold finish
  cases report.result with
  | error failure => rfl
  | ok product =>
    cases product with
    | lines lines => rfl
    | file path page =>
      dsimp only
      rw [StateT.run_bind, FileTree.access_save]
      cases t.save path page.toArray <;> rfl

theorem run_unopened {why : FileFailure} (h : t.openMemory i.memory i.command.writes = .error why) :
    (i.run FileTree.access).run t = (i.outcome [] (.error (.cannotOpen i.memory why)), t) := by
  unfold run
  rw [StateT.run_bind, FileTree.access_openMemory, h]
  rfl

theorem run_image (h : t.Image i.memory place bytes) :
    (i.run FileTree.access).run t =
      i.finish (i.perform (i.image bytes))
        (t.kept place bytes (i.perform (i.image bytes)).memory.bytes) := by
  have hopen : (FileTree.access.openMemory i.memory i.command.writes).run t =
      (.ok (i.image bytes), t.opened place) := by
    rw [FileTree.access_openMemory, h.openMemory_eq i.command.writes]
    rfl
  have hkeep : (FileTree.access.keep i.memory (i.perform (i.image bytes)).memory.bytes).run
      (t.opened place) =
        ((), (t.opened place).put place (.file (i.perform (i.image bytes)).memory.bytes)) := by
    rw [FileTree.access_keep, h.save_opened]
    rfl
  unfold run
  rw [StateT.run_bind, hopen]
  unfold FileTree.kept
  show StateT.run
    (if ((i.perform (i.image bytes)).memory.bytes != bytes) = true then _ else _) _ = _
  by_cases hchanged : ((i.perform (i.image bytes)).memory.bytes != bytes) = true
  · rw [if_pos hchanged, if_pos hchanged, StateT.run_bind, hkeep]
    exact run_finish _ _
  · rw [if_neg hchanged, if_neg hchanged]
    exact run_finish _ _

/-- A run of a command that leaves its memory as it was keeps nothing. -/
theorem run_opened {opened : FileTree} {memory : Memory}
    (hopen : t.openMemory i.memory i.command.writes = .ok (memory, opened))
    (hsame : (i.perform memory).memory = memory) :
    (i.run FileTree.access).run t = i.finish (i.perform memory) opened := by
  have haccess : (FileTree.access.openMemory i.memory i.command.writes).run t =
      (.ok memory, opened) := by
    rw [FileTree.access_openMemory, hopen]
  unfold run
  rw [StateT.run_bind, haccess]
  show StateT.run
    (if ((i.perform memory).memory.bytes != memory.bytes) = true then _ else _) _ = _
  rw [if_neg (by simp [hsame])]
  exact run_finish _ _

end Invocation

end Paging.CommandLine
