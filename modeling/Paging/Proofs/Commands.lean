import Paging.Proofs.Images
import Paging.Proofs.PageTransfer
import Paging.Proofs.Rewriting

/-!
# What commands do to a memory image

A command enters the one space of its image at once, so its run is the walk of its address and the
stores that follow from it. One that only looks leaves the memory as it was; one that edits reports
either why its walk failed or which of the levels it names it has written (`Invocation.Edited`), and
has written nothing if it reports a failure (`Invocation.memory_perform_same`).
-/

namespace Paging

/-! ### Operations that write nothing -/

theorem Op.runOn_bind_pure {α β : Type} {others : Bystander} {op : Op α} {m m' : Machine}
    {es : List Event} {r : Except Error α} (h : op.runOn others m = some ⟨es, m', r⟩) (f : α → β) :
    ∃ es' r', (op >>= fun a => pure (f a)).runOn others m = some ⟨es', m', r'⟩ := by
  rw [runOn_map, h]
  exact ⟨_, _, rfl⟩

namespace CommandLine

/-! ### Commands as operations -/

namespace Command

variable {e : Engine} {vaddr : VirtualAddress} {d : EntryEdit}

/-- The command that makes a bit of some entries set or clear. -/
def putBit (value : Bool) (vaddr : VirtualAddress) (bit : UInt32) (levels : LevelMask) : Command :=
  if value then .setBit vaddr bit levels else .clearBit vaddr bit levels

/-- A command that puts what it finds into a file of its own instead of printing it. -/
def saves : Command → Bool
  | readPage _ (some _) => true
  | readPage _ none | resolve _ | setBit .. | clearBit .. | setPfn .. => false

/-- The edit that a command makes of the entries for an address, if it makes one. -/
def edit? : Command → Option (VirtualAddress × EntryEdit)
  | setBit vaddr bit levels => some (vaddr, .setBit levels bit)
  | clearBit vaddr bit levels => some (vaddr, .clearBit levels bit)
  | setPfn vaddr pfn => some (vaddr, .setLastPfn pfn)
  | resolve _ | readPage .. => none

/-- What an edit has come to that wrote these levels. -/
def answer (c : Command) (written : LevelMask) : Except Failure Finding :=
  match c with
  | setPfn vaddr pfn =>
    if written.isEmpty then .error (.unmapped vaddr) else .ok (.mapped vaddr pfn)
  | _ => .ok (.written written)

variable {c : Command}

theorem edit?_isSome (c : Command) : c.edit?.isSome = c.writes := by
  cases c <;> rfl

theorem writes_of_edit (h : c.edit? = some (vaddr, d)) : c.writes = true := by
  rw [← edit?_isSome, h]
  rfl

theorem operation_edit (h : c.edit? = some (vaddr, d)) :
    c.operation e =
      e.edit vaddr imagePid d.mask d.patchFor >>= fun written => pure (c.answer written) := by
  cases c with
  | resolve vaddr | readPage pfn output => cases h
  | setBit vaddr bit levels | clearBit vaddr bit levels =>
    cases h
    rfl
  | setPfn vaddr pfn =>
    cases h
    simp only [operation, Engine.setLastPfn, Engine.patch, bind_assoc, pure_bind]
    congr 1
    funext written
    unfold answer
    cases written.isEmpty <;> rfl

/-- The edit behind a change of a bit does the same to whatever entry it writes. -/
theorem edit?_putBit (value : Bool) (vaddr : VirtualAddress) (bit : UInt32) (levels : LevelMask) :
    ∃ d, (putBit value vaddr bit levels).edit? = some (vaddr, d) ∧ d.mask = levels ∧
      (∀ (arch : Architecture) l raw, arch.encode raw (d.patchFor l) (Geometry.kind l) =
        raw.withBit (bit.toNat % 64) value) ∧
      ∀ written, (putBit value vaddr bit levels).answer written = .ok (.written written) := by
  cases value with
  | true =>
    exact ⟨.setBit levels bit, rfl, rfl, fun arch l raw => arch.encode_setBit raw bit _,
      fun _ => rfl⟩
  | false =>
    exact ⟨.clearBit levels bit, rfl, rfl, fun arch l raw => arch.encode_clearBit raw bit _,
      fun _ => rfl⟩

/-- What is printed of the levels written names them in the order of the list. -/
theorem lines_written {ls : List Level} (h : ls.Sublist Level.all) :
    (Finding.written (.ofLevels ls)).lines e =
      [if ls = [] then "no level written"
        else "wrote " ++ ", ".intercalate (ls.map Level.name)] := by
  simp only [Finding.lines, Finding.writtenLine, LevelMask.levels_ofLevels h]
  cases ls <;> rfl

theorem saves_of_writes (h : c.writes = true) : c.saves = false := by
  cases c <;> first | rfl | cases h

theorem product_of_printing (h : c.saves = false) (f : Finding) :
    c.product e f = .lines (f.lines e) := by
  unfold product
  split
  · cases h
  · rfl

/-- A command has something against an edit that has come to its end only if it wrote nothing. -/
theorem nil_of_answer {ls : List Level} {failure : Failure}
    (h : c.answer (.ofLevels ls) = .error failure) : ls = [] := by
  unfold answer at h
  split at h
  · split at h
    · rename_i hempty
      exact (LevelMask.isEmpty_ofLevels ls).mp hempty
    · cases h
  · cases h

end Command

namespace Invocation

variable {i : Invocation} {e : Engine} {memory : Memory} {vaddr : VirtualAddress} {d : EntryEdit}
  {visits : List Visit}

/-- The translation of an address by the tables of an image. -/
def translation (i : Invocation) (e : Engine) (memory : Memory) (vaddr : VirtualAddress) :
    Translation :=
  ⟨e, memory, ⟨i.root⟩, vaddr⟩

theorem engine_eq (h : i.engine = .ok e) :
    e.arch = i.arch ∧ e.geometry.isUsable = true := by
  unfold engine at h
  cases hg : i.layout.geometry i.arch with
  | error err =>
    rw [hg] at h
    cases h
  | ok g =>
    rw [hg] at h
    obtain ⟨hu, rfl⟩ := Engine.ofGeometry_eq_ok_iff.mp h
    exact ⟨rfl, hu⟩

/-! ### Effects -/

theorem grants_machine (i : Invocation) (memory : Memory) :
    ∃ held, (i.machine memory).locks.Grants .yielding imagePid 0 held ∧
      held.holds.find? imagePid = some ⟨0, 1, none⟩ ∧ held.root 0 = ⟨i.root⟩ :=
  ⟨_, ⟨_, rfl⟩, rfl, rfl⟩

theorem effect_eq {eff : Effect (Except Error (Except Failure Finding))}
    (h : (i.command.operation e).runOn .yielding (i.machine memory) = some eff) :
    i.effect e memory = eff := by
  unfold effect Program.runSettled
  exact Option.get_of_eq_some _ h

theorem effect_edit_failed (h : i.command.edit? = some (vaddr, d)) {err : Error}
    (hv : e.visited vaddr memory ⟨i.root⟩ = .error err) :
    (i.effect e memory).machine.memory = memory ∧ (i.effect e memory).reply = .error err := by
  obtain ⟨held, hgr, hheld, hroot⟩ := i.grants_machine memory
  rw [← hroot] at hv
  obtain ⟨es, hedit⟩ : ∃ es, (e.edit vaddr imagePid d.mask d.patchFor).runOn .yielding
      (i.machine memory) = _ := Engine.runOn_edit_failed hgr hheld (by decide) hv
  have hrun := Op.runOn_bind_error .yielding hedit fun written => pure (i.command.answer written)
  rw [← Command.operation_edit h] at hrun
  rw [effect_eq hrun]
  exact ⟨rfl, rfl⟩

theorem effect_edit (h : i.command.edit? = some (vaddr, d))
    (hv : e.visited vaddr memory ⟨i.root⟩ = .ok visits)
    (hw : (Memory.writeWords (e.storesAt visits d.mask d.patchFor Level.all) memory).1 = none) :
    (i.effect e memory).machine.memory =
        (Memory.writeWords (e.storesAt visits d.mask d.patchFor Level.all) memory).2 ∧
      (i.effect e memory).reply =
        .ok (i.command.answer (.ofLevels (Engine.writtenAt visits d.mask Level.all))) := by
  obtain ⟨held, hgr, hheld, hroot⟩ := i.grants_machine memory
  rw [← hroot] at hv
  obtain ⟨es, hedit⟩ : ∃ es, (e.edit vaddr imagePid d.mask d.patchFor).runOn .yielding
      (i.machine memory) = _ := Engine.runOn_edit hgr hheld (by decide) hv
  have hmemory : (i.machine memory).memory = memory := rfl
  simp only [hmemory, hw, answerUnless] at hedit
  have hrun := Op.runOn_bind_ok .yielding hedit fun written => pure (i.command.answer written)
  rw [← Command.operation_edit h] at hrun
  rw [effect_eq hrun]
  exact ⟨rfl, rfl⟩

theorem memory_effect_of_looking (h : i.command.writes = false) :
    (i.effect e memory).machine.memory = memory := by
  have hrun : ∃ es locks r, (i.command.operation e).runOn .yielding (i.machine memory) =
      some ⟨es, { i.machine memory with locks := locks }, r⟩ := by
    cases hc : i.command with
    | setBit vaddr bit levels | clearBit vaddr bit levels | setPfn vaddr pfn =>
      rw [hc] at h
      cases h
    | resolve vaddr =>
      obtain ⟨held, hgr, _⟩ := i.grants_machine memory
      obtain ⟨es, hresolve⟩ := e.runOn_resolve vaddr .yielding hgr
      obtain ⟨es', r, hrun⟩ := Op.runOn_bind_pure hresolve fun set =>
        (Except.ok (.entries set) : Except Failure Finding)
      exact ⟨es', _, r, hrun⟩
    | readPage pfn output =>
      obtain ⟨es, r, hread⟩ := e.machine_readPage .yielding (i.machine memory) pfn e.pageSize
      obtain ⟨es', r', hrun⟩ := Op.runOn_bind_pure hread fun bytes =>
        (Except.ok (.page (pfn * UInt64.ofNat e.pageSize) bytes) : Except Failure Finding)
      exact ⟨es', _, r', hrun⟩
  obtain ⟨es, locks, r, hrun⟩ := hrun
  rw [effect_eq hrun]
  rfl

/-! ### Reports -/

theorem perform_of_refused {err : Error} (he : i.engine = .error err) :
    i.perform memory = ⟨[], memory, .error (.refused err)⟩ := by
  unfold perform
  rw [he]

theorem memory_perform (he : i.engine = .ok e) :
    (i.perform memory).memory = (i.effect e memory).machine.memory := by
  unfold perform
  rw [he]

theorem result_perform (he : i.engine = .ok e) :
    (i.perform memory).result =
      match (i.effect e memory).reply with
      | .error error => .error (.refused error)
      | .ok (.error failure) => .error failure
      | .ok (.ok finding) => .ok (i.command.product e finding) := by
  unfold perform
  generalize i.engine = ready at he
  subst he
  rfl

/-- What is reported of an edit of an image. -/
inductive Edited (x : Translation) (c : Command) (d : EntryEdit) : Report → Prop where
  | failed {report : Report} {err : Error}
      (hv : x.engine.visited x.vaddr x.memory x.root = .error err)
      (hmemory : report.memory = x.memory) (hresult : report.result = .error (.refused err)) :
      Edited x c d report
  | done {report : Report} {visits : List Visit}
      (hv : x.engine.visited x.vaddr x.memory x.root = .ok visits)
      (hw : (Memory.writeWords (x.engine.storesAt visits d.mask d.patchFor Level.all)
        x.memory).1 = none)
      (hmemory : report.memory = (Memory.writeWords
        (x.engine.storesAt visits d.mask d.patchFor Level.all) x.memory).2)
      (hresult : report.result =
        (c.answer (.ofLevels (x.walked.filter d.mask.has))).map
          fun f => .lines (f.lines x.engine)) :
      Edited x c d report

theorem edited_perform (he : i.engine = .ok e) (h : i.command.edit? = some (vaddr, d))
    (ht : memory.takesWrites = true) :
    Edited (i.translation e memory vaddr) i.command d (i.perform memory) := by
  have hu : e.geometry.isUsable = true := (engine_eq he).2
  cases hv : e.visited vaddr memory ⟨i.root⟩ with
  | error err =>
    obtain ⟨hmemory, hreply⟩ := effect_edit_failed h hv
    refine .failed hv ((memory_perform he).trans hmemory) ?_
    rw [result_perform he, hreply]
  | ok visits =>
    have hread := Engine.readable_storesAt hv d.mask d.patchFor Level.all
    have hw := (Memory.writeWords_of_accepted _ memory fun s hs =>
      ⟨hread s hs, Memory.writeRefusal?_of_takesWrites ht (hread s hs)⟩).1
    obtain ⟨hmemory, hreply⟩ := effect_edit h hv hw
    refine .done hv hw ((memory_perform he).trans hmemory) ?_
    have hwritten : Engine.writtenAt visits d.mask Level.all =
        (i.translation e memory vaddr).walked.filter d.mask.has := by
      rw [d.writtenAt_eq visits 0 vaddr]
      exact EntryEdit.written_eq_walked (x := i.translation e memory vaddr) hu hv 0
    rw [result_perform he, hreply, hwritten]
    cases i.command.answer _ with
    | error failure => rfl
    | ok finding =>
      have hsaves := Command.saves_of_writes (Command.writes_of_edit h)
      exact congrArg Except.ok (Command.product_of_printing hsaves finding)

variable {t : FileTree} {place : Place} {bytes : Array UInt8}

theorem image_of_writes (h : i.command.writes = true) :
    i.image bytes = ⟨.file .readWrite, bytes⟩ := by
  unfold image
  rw [if_pos h]

theorem edit?_of_writes (h : i.command.writes = true) :
    ∃ vaddr d, i.command.edit? = some (vaddr, d) := by
  rw [← Command.edit?_isSome] at h
  obtain ⟨⟨vaddr, d⟩, hedit⟩ := Option.isSome_iff_exists.mp h
  exact ⟨vaddr, d, hedit⟩

theorem edited_image (he : i.engine = .ok e) (h : i.command.edit? = some (vaddr, d)) :
    Edited (i.translation e (i.image bytes) vaddr) i.command d (i.perform (i.image bytes)) := by
  refine edited_perform he h ?_
  rw [image_of_writes (Command.writes_of_edit h)]
  rfl

/-- Memory is what it was after a command that does not write and after one that fails. -/
theorem memory_perform_same
    (h : i.command.writes = false ∨
      ∃ failure, (i.perform (i.image bytes)).result = .error failure) :
    (i.perform (i.image bytes)).memory = i.image bytes := by
  cases he : i.engine with
  | error err => rw [perform_of_refused he]
  | ok e =>
    cases hw : i.command.writes with
    | false => rw [memory_perform he, memory_effect_of_looking hw]
    | true =>
      obtain ⟨vaddr, d, hedit⟩ := edit?_of_writes hw
      obtain ⟨failure, hfailure⟩ := h.resolve_left (by simp [hw])
      cases edited_image he hedit with
      | failed _ hmemory _ => exact hmemory
      | done hv _ hmemory hresult =>
        rw [hmemory]
        refine EntryEdit.writeWords_of_nothing (engine_eq he).2 hv ?_
        cases hanswer : i.command.answer (.ofLevels
            ((i.translation e (i.image bytes) vaddr).walked.filter d.mask.has)) with
        | error failure => exact Command.nil_of_answer hanswer
        | ok finding =>
          rw [hresult, hanswer] at hfailure
          cases hfailure

theorem result_ne_file (h : i.command.saves = false) (path : String) (page : List UInt8) :
    (i.perform memory).result ≠ .ok (.file path page) := by
  intro hfile
  cases he : i.engine with
  | error err =>
    rw [perform_of_refused he] at hfile
    cases hfile
  | ok e =>
    rw [result_perform he] at hfile
    split at hfile
    · cases hfile
    · cases hfile
    · rw [Command.product_of_printing h] at hfile
      cases hfile

end Invocation

end CommandLine

end Paging
