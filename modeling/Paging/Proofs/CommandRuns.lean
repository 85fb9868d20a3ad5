import Paging.Proofs.Commands

/-!
# What runs do to files

Whatever the arguments, a run that fails leaves every file as it was, and so does a command that
only prints. A command that writes changes no other file and of the image only the words at the
slots of the levels that it names and the walk reaches; it says which levels these were, and a
change of a frame number says whether there was an entry to change (`run_changes_as_asked`).
-/

namespace Paging.CommandLine

namespace Invocation

variable {i : Invocation} {e : Engine} {vaddr : VirtualAddress} {d : EntryEdit} {t : FileTree}
  {place : Place} {bytes : Array UInt8}

/-! ### Ends of runs -/

theorem finish_cases (i : Invocation) (report : Report) (kept : FileTree) :
    (i.finish report kept).1.exit = 0 ∧ (∀ failure, report.result ≠ .error failure) ∨
      (i.finish report kept).2 = kept ∧ (i.finish report kept).1.exit = 1 ∧
        (∃ log failure, (i.finish report kept).1.stderr =
          Text.unlines (log ++ ["Error: " ++ Failure.text failure])) ∧
        ((∃ failure, report.result = .error failure) ∨
          ∃ path page, report.result = .ok (.file path page)) := by
  unfold finish
  cases report.result with
  | error failure => exact .inr ⟨rfl, rfl, ⟨_, _, rfl⟩, .inl ⟨_, rfl⟩⟩
  | ok product =>
    cases product with
    | lines lines => exact .inl ⟨rfl, nofun⟩
    | file path page =>
      dsimp only
      cases kept.save path page.toArray with
      | ok saved => exact .inl ⟨rfl, nofun⟩
      | error why => exact .inr ⟨rfl, rfl, ⟨_, _, rfl⟩, .inr ⟨_, _, rfl⟩⟩

theorem finish_lines {report : Report} {lines : List String}
    (h : report.result = .ok (.lines lines)) (kept : FileTree) :
    i.finish report kept = (i.outcome report.notices (.ok lines), kept) := by
  unfold finish
  rw [h]

theorem finish_keeps {report : Report}
    (h : ∀ path page, report.result ≠ .ok (.file path page)) (kept : FileTree) :
    (i.finish report kept).2 = kept := by
  unfold finish
  cases hresult : report.result with
  | error failure => rfl
  | ok product =>
    cases product with
    | lines lines => rfl
    | file path page => exact absurd hresult (h path page)

/-! ### Runs -/

/-- The run of a command that edits, if it succeeds: the words that it has rewritten and what it
says of them. -/
theorem edited_run (himage : t.Image i.memory place bytes)
    (h : i.command.edit? = some (vaddr, d)) {f : Word → Word} (hf : ∀ l, d.mask.has l = true → ∀ raw,
      i.arch.encode raw (d.patchFor l) (Geometry.kind l) = f raw)
    (hexit : ((i.run FileTree.access).run t).1.exit = 0) :
    ∃ e visits after finding, i.engine = .ok e ∧
      let x := i.translation e (i.image bytes) vaddr
      let written := x.walked.filter d.mask.has
      x.engine.visited x.vaddr x.memory x.root = .ok visits ∧
      ((i.run FileTree.access).run t).2.node? place = some (.file after) ∧
      Bytes.Rewritten bytes after (written.map x.slotOf) f ∧
      i.command.answer (.ofLevels written) = .ok finding ∧
      ((i.run FileTree.access).run t).1.stdout = Text.unlines (finding.lines e) := by
  rw [run_image himage] at hexit ⊢
  have hnot : ∀ failure, (i.perform (i.image bytes)).result ≠ .error failure := by
    obtain ⟨_, hnot⟩ | ⟨_, hfails, _⟩ := finish_cases i (i.perform (i.image bytes))
      (t.kept place bytes (i.perform (i.image bytes)).memory.bytes)
    · exact hnot
    · rw [hfails] at hexit
      cases hexit
  cases he : i.engine with
  | error err =>
    rw [perform_of_refused he] at hnot
    exact absurd rfl (hnot _)
  | ok e =>
    cases edited_image he h with
    | failed _ _ hresult => exact absurd hresult (hnot _)
    | @done visits hv hw hmemory hresult =>
      obtain ⟨harch, hu⟩ := engine_eq he
      have hback : (i.image bytes).backing = .file .readWrite :=
        congrArg Memory.backing (image_of_writes (Command.writes_of_edit h))
      have hencode : ∀ l, d.mask.has l = true → ∀ raw,
          e.arch.encode raw (d.patchFor l) (Geometry.kind l) = f raw := by
        rw [harch]
        exact hf
      have hrewritten := EntryEdit.rewritten_file hu hback hv hw hencode
      cases hanswer : i.command.answer (.ofLevels
          ((i.translation e (i.image bytes) vaddr).walked.filter d.mask.has)) with
      | error failure =>
        rw [hanswer] at hresult
        exact absurd hresult (hnot _)
      | ok finding =>
        rw [hanswer] at hresult
        rw [finish_lines hresult, hmemory]
        refine ⟨e, visits, _, finding, rfl, hv, ?_, hrewritten, hanswer, rfl⟩
        rw [himage.node?_kept, if_pos rfl]

/-- A change of a frame number succeeds if the walk reaches the last level. -/
theorem exit_of_reachesLast (himage : t.Image i.memory place bytes) {pfn : Word}
    (hc : i.command = .setPfn vaddr pfn) (he : i.engine = .ok e)
    (h : (i.translation e (i.image bytes) vaddr).ReachesLast) :
    ((i.run FileTree.access).run t).1.exit = 0 := by
  have hedit : i.command.edit? = some (vaddr, .setLastPfn pfn) := by
    rw [hc]
    rfl
  have hu : (i.translation e (i.image bytes) vaddr).engine.geometry.isUsable = true :=
    (engine_eq he).2
  obtain ⟨visits, hv, hlast⟩ := (Translation.reachesLast_iff hu).mp h
  rw [run_image himage]
  cases edited_image he hedit with
  | failed hfailed _ _ =>
    rw [hv] at hfailed
    cases hfailed
  | done _ _ _ hresult =>
    have hwritten : (i.translation e (i.image bytes) vaddr).walked.filter
        (EntryEdit.setLastPfn pfn).mask.has = [.pte] := Translation.filter_last hu hlast
    rw [hwritten, hc] at hresult
    rw [finish_lines hresult]
    rfl

/-- The run of a change of a frame number, if it succeeds. -/
theorem pfn_run (himage : t.Image i.memory place bytes) {pfn : Word}
    (hc : i.command = .setPfn vaddr pfn)
    (hexit : ((i.run FileTree.access).run t).1.exit = 0) :
    ∃ e after, i.engine = .ok e ∧
      let x := i.translation e (i.image bytes) vaddr
      x.ReachesLast ∧ ((i.run FileTree.access).run t).2.node? place = some (.file after) ∧
      Bytes.Rewritten bytes after [x.slotAddress x.stop] (i.arch.tableField.put · pfn) := by
  have hedit : i.command.edit? = some (vaddr, .setLastPfn pfn) := by
    rw [hc]
    rfl
  have hencode : ∀ l, (EntryEdit.setLastPfn pfn).mask.has l = true → ∀ raw,
      i.arch.encode raw ((EntryEdit.setLastPfn pfn).patchFor l) (Geometry.kind l) =
        i.arch.tableField.put raw pfn := by
    intro l hl raw
    rw [LevelMask.eq_last_of_has hl]
    exact i.arch.encode_withPfn raw pfn
  obtain ⟨e, visits, after, finding, he, hv, hafter, hrewritten, hfound, _⟩ :=
    edited_run himage hedit hencode hexit
  have hu : (i.translation e (i.image bytes) vaddr).engine.geometry.isUsable = true :=
    (engine_eq he).2
  -- the command says that it has written, so the last level was reached
  have hlast : Level.last ∈ (i.translation e (i.image bytes) vaddr).walked := by
    have hne : (i.translation e (i.image bytes) vaddr).walked.filter
        (EntryEdit.setLastPfn pfn).mask.has ≠ [] := by
      intro hnil
      rw [hc, hnil] at hfound
      cases hfound
    obtain ⟨l, hl⟩ := List.exists_mem_of_ne_nil _ hne
    obtain ⟨hmem, hmask⟩ := List.mem_filter.mp hl
    exact LevelMask.eq_last_of_has hmask ▸ hmem
  have hreaches : (i.translation e (i.image bytes) vaddr).ReachesLast :=
    (Translation.reachesLast_iff hu).mpr ⟨visits, hv, hlast⟩
  refine ⟨e, after, he, hreaches, hafter, ?_⟩
  have hwritten : (i.translation e (i.image bytes) vaddr).walked.filter
      (EntryEdit.setLastPfn pfn).mask.has = [.pte] := Translation.filter_last hu hlast
  rw [hwritten] at hrewritten
  rw [← Translation.slotOf_last hu hreaches.last]
  exact hrewritten

/-- What a run on a memory image has done to the files, given what was asked and how it ended. -/
structure AsAsked (i : Invocation) (t : FileTree) (place : Place) (bytes : Array UInt8)
    (done : Outcome × FileTree) : Prop where
  ends : done.1.exit = 0 ∨ done.1.exit = 1 ∧ ∃ log failure,
    done.1.stderr = Text.unlines (log ++ ["Error: " ++ Failure.text failure])
  failed : done.1.exit ≠ 0 → ∀ p, done.2.node? p = t.node? p
  printed : i.command.writes = false → i.command.saves = false → ∀ p, done.2.node? p = t.node? p
  elsewhere : i.command.writes = true → ∀ p ≠ place, done.2.node? p = t.node? p
  bits : ∀ value vaddr bit levels, i.command = .putBit value vaddr bit levels → done.1.exit = 0 →
    ∃ e after, i.engine = .ok e ∧ done.2.node? place = some (.file after) ∧
      let x := i.translation e (i.image bytes) vaddr
      let written := x.walked.filter levels.has
      Bytes.Rewritten bytes after (written.map x.slotOf)
        (fun w => w.withBit (bit.toNat % 64) value) ∧
      done.1.stdout = Text.unlines
        [if written = [] then "no level written"
          else "wrote " ++ ", ".intercalate (written.map Level.name)]
  reaches : ∀ vaddr pfn, i.command = .setPfn vaddr pfn →
    (done.1.exit = 0 ↔
      ∃ e, i.engine = .ok e ∧ (i.translation e (i.image bytes) vaddr).ReachesLast)
  pfn : ∀ vaddr pfn, i.command = .setPfn vaddr pfn → done.1.exit = 0 →
    ∃ e after, i.engine = .ok e ∧ done.2.node? place = some (.file after) ∧
      let x := i.translation e (i.image bytes) vaddr
      Bytes.Rewritten bytes after [x.slotAddress x.stop] (i.arch.tableField.put · pfn)

theorem asAsked_run (himage : t.Image i.memory place bytes) :
    i.AsAsked t place bytes ((i.run FileTree.access).run t) := by
  have hkept : (i.perform (i.image bytes)).memory = i.image bytes → ∀ p,
      (t.kept place bytes (i.perform (i.image bytes)).memory.bytes).node? p = t.node? p := by
    intro hmemory p
    rw [hmemory]
    exact himage.node?_kept_same p
  have hends := finish_cases i (i.perform (i.image bytes))
    (t.kept place bytes (i.perform (i.image bytes)).memory.bytes)
  rw [← run_image himage] at hends
  constructor
  case ends => exact hends.imp And.left fun ⟨_, hexit, hstderr, _⟩ => ⟨hexit, hstderr⟩
  case failed =>
    intro hexit p
    obtain ⟨hfine, _⟩ | ⟨htree, _, _, hcause⟩ := hends
    · exact absurd hfine hexit
    · rw [htree]
      refine hkept (memory_perform_same ?_) p
      obtain hfailure | ⟨path, page, hfile⟩ := hcause
      · exact .inr hfailure
      · -- there is a page to be saved, so the command is not one that writes
        left
        cases hwrites : i.command.writes with
        | false => rfl
        | true => exact absurd hfile (result_ne_file (Command.saves_of_writes hwrites) path page)
  case printed =>
    intro hwrites hsaves p
    rw [run_image himage, finish_keeps (result_ne_file hsaves)]
    exact hkept (memory_perform_same (.inl hwrites)) p
  case elsewhere =>
    intro hwrites p hp
    rw [run_image himage, finish_keeps (result_ne_file (Command.saves_of_writes hwrites)),
      himage.node?_kept, if_neg hp]
  case bits =>
    intro value vaddr bit levels hc hexit
    obtain ⟨d, hedit, rfl, hencode, hanswer⟩ := Command.edit?_putBit value vaddr bit levels
    rw [← hc] at hedit hanswer
    obtain ⟨e, visits, after, finding, he, hv, hafter, hrewritten, hfound, hstdout⟩ :=
      edited_run himage hedit (fun l _ raw => hencode i.arch l raw) hexit
    refine ⟨e, after, he, hafter, hrewritten, ?_⟩
    rw [hanswer] at hfound
    cases hfound
    rw [hstdout, Command.lines_written]
    exact List.filter_sublist.trans (Translation.walked_sublist (engine_eq he).2)
  case reaches =>
    intro vaddr pfn hc
    constructor
    · intro hexit
      obtain ⟨e, after, he, hlast, _⟩ := pfn_run himage hc hexit
      exact ⟨e, he, hlast⟩
    · rintro ⟨e, he, h⟩
      exact exit_of_reachesLast himage hc he h
  case pfn =>
    intro vaddr pfn hc hexit
    obtain ⟨e, after, he, _, hafter, hrewritten⟩ := pfn_run himage hc hexit
    exact ⟨e, after, he, hafter, hrewritten⟩

end Invocation

/-- Whatever the arguments, a run changes the files only as they ask. One that is not carried out or
cannot open its image changes nothing at all; one that opens an image can change that image alone,
and changes of it what its command names. -/
theorem run_changes_as_asked (arguments : List String) (t : FileTree) :
    (∀ halt, Invocation.ofArguments arguments = .error halt →
      (run FileTree.access arguments).run t = (halt.outcome, t)) ∧
    ∀ i, Invocation.ofArguments arguments = .ok i →
      (∀ why, t.openMemory i.memory i.command.writes = .error why →
        (run FileTree.access arguments).run t =
          (i.outcome [] (.error (.cannotOpen i.memory why)), t)) ∧
      ∀ place bytes, t.Image i.memory place bytes →
        i.AsAsked t place bytes ((run FileTree.access arguments).run t) := by
  constructor
  · intro halt h
    unfold run
    rw [h]
    rfl
  · intro i h
    have hrun : run FileTree.access arguments = i.run FileTree.access := by
      unfold run
      rw [h]
    rw [hrun]
    exact ⟨fun why hwhy => Invocation.run_unopened hwhy,
      fun place bytes himage => Invocation.asAsked_run himage⟩

/-- A file of one word, which is a table that maps itself. -/
def FileTree.selfMapped : FileTree :=
  ⟨[(["mem.img"], .file (Bytes.ofWord 1).toArray)], [], [], #[], #[]⟩

theorem FileTree.image_selfMapped :
    selfMapped.Image "mem.img" ["mem.img"] (Bytes.ofWord 1).toArray where
  found := ⟨⟨[], "mem.img", false⟩, rfl, rfl, rfl⟩
  file := rfl
  unlinked := rfl
  unopened := by simp [selfMapped, node?, descriptor]

def Invocation.selfMapped : Invocation := ⟨"mem.img", .x86_64, 8, .usual, 0, .setPfn ⟨0⟩ 5⟩

/-- All four levels of the walk read the one word. -/
theorem Invocation.reachesLast_selfMapped :
    (selfMapped.translation ⟨.x86_64, .usual .x86_64⟩
      (selfMapped.image (Bytes.ofWord 1).toArray) ⟨0⟩).ReachesLast where
  rooted := rfl
  readable := by
    have hall : ∀ i < 4, (selfMapped.translation ⟨.x86_64, .usual .x86_64⟩
      (selfMapped.image (Bytes.ofWord 1).toArray) ⟨0⟩).readable i = true := by decide
    exact fun i hi => hall i (Nat.lt_succ_of_le hi)
  last := rfl

theorem run_changes_as_asked_selfMapped :
    Invocation.ofArguments
        ["--memory", "mem.img", "--arch", "x86_64", "--root", "8", "set-pfn", "0", "5"] =
      .ok .selfMapped ∧
    FileTree.selfMapped.Image "mem.img" ["mem.img"] (Bytes.ofWord 1).toArray ∧
    Invocation.selfMapped.AsAsked .selfMapped ["mem.img"] (Bytes.ofWord 1).toArray
      ((run FileTree.access
        ["--memory", "mem.img", "--arch", "x86_64", "--root", "8", "set-pfn", "0", "5"]).run
          .selfMapped) ∧
    ((run FileTree.access
      ["--memory", "mem.img", "--arch", "x86_64", "--root", "8", "set-pfn", "0", "5"]).run
        .selfMapped).1.exit = 0 := by
  have hasked := ((run_changes_as_asked
    ["--memory", "mem.img", "--arch", "x86_64", "--root", "8", "set-pfn", "0", "5"]
    .selfMapped).2 .selfMapped rfl).2 _ _ FileTree.image_selfMapped
  exact ⟨rfl, FileTree.image_selfMapped, hasked,
    (hasked.reaches ⟨0⟩ 5 rfl).mpr ⟨_, rfl, Invocation.reachesLast_selfMapped⟩⟩

end Paging.CommandLine
