import Paging.Proofs.CommandRuns
import Paging.Proofs.DumpReading

/-!
# Dumps of pages

A page that was read from a file lies below the last position that a file can have, so neither its
base nor the label of a row of its dump needs more than 64 bits (`Memory.readBytes_file_iff`,
`Engine.showsPage`). A page is a number of full rows, and what the program prints for it reads back
as these rows (`CommandLine.dumps_pages`).
-/

namespace Paging

theorem Bytes.slice_part (bytes : Array UInt8) (start : Nat) {offset part count : Nat}
    (h : offset + part ≤ count) :
    ((slice bytes start (start + count)).drop offset).take part =
      slice bytes (start + offset) (start + offset + part) := by
  simp only [slice, Array.toList_extract, List.extract_eq_take_drop, Nat.add_sub_cancel_left,
    List.drop_take, List.drop_drop, List.take_take]
  rw [Nat.min_eq_left (by omega)]

theorem Address.toNat_add {kind : AddressKind} {a : Address kind} {offset : Nat}
    (h : a.toNat + offset < 2 ^ 64) : (a.add (UInt64.ofNat offset)).toNat = a.toNat + offset := by
  show (a.word + UInt64.ofNat offset).toNat = a.word.toNat + offset
  have hfits : a.word.toNat + offset < 2 ^ 64 := h
  have hoffset : offset % 2 ^ 64 = offset := Nat.mod_eq_of_lt (by omega)
  rw [UInt64.toNat_add, UInt64.toNat_ofNat', hoffset, Nat.mod_eq_of_lt hfits]

namespace Memory

variable {m : Memory} {mode : FileMode} {a : PhysicalAddress} {count : Nat} {bs : List UInt8}

/-! ### Reading from files -/

theorem readFailure?_eq_none_iff : readFailure? mode a count = none ↔
    a.toNat + count < 2 ^ 63 ∧ mode ≠ .stream ∧ mode ≠ .directory := by
  simp only [readFailure?, beyondFile, decide_eq_true_eq, Nat.add_zero]
  grind

theorem readBytes_file_iff (hb : m.backing = .file mode) (hc : count ≠ 0) :
    m.readBytes a count = .ok bs ↔
      (a.toNat + count < 2 ^ 63 ∧ mode ≠ .stream ∧ mode ≠ .directory) ∧
        if mode = .zeros then bs = List.replicate count 0
        else a.toNat + count ≤ m.size ∧ bs = Bytes.slice m.bytes a.toNat (a.toNat + count) := by
  have hinside : m.inside? a count =
      if a.toNat + count ≤ m.size then some a.toNat else none := by
    simp only [inside?, hb, position?, Option.filter_some, decide_eq_true_eq]
  rw [← readFailure?_eq_none_iff, readBytes, hb]
  simp only [hc, if_false, hinside]
  cases readFailure? mode a count with
  | some why => simp
  | none =>
    by_cases hz : mode = .zeros
    · simp [hz, eq_comm]
    · by_cases hin : a.toNat + count ≤ m.size <;> simp [hz, hin, eq_comm]

/-- Part of what is read from a file is read where it lies. -/
theorem readBytes_part (hb : m.backing = .file mode) (h : m.readBytes a count = .ok bs)
    {offset part : Nat} (hpart : part ≠ 0) (hin : offset + part ≤ count) :
    m.readBytes (a.add (UInt64.ofNat offset)) part = .ok ((bs.drop offset).take part) := by
  obtain ⟨⟨hfits, hmode⟩, hbytes⟩ := (readBytes_file_iff hb (by omega)).mp h
  have haddress := Address.toNat_add (a := a) (show a.toNat + offset < 2 ^ 64 by omega)
  rw [readBytes_file_iff hb hpart, haddress]
  refine ⟨⟨by omega, hmode⟩, ?_⟩
  by_cases hz : mode = .zeros
  · rw [if_pos hz] at hbytes ⊢
    rw [hbytes, List.drop_replicate, List.take_replicate, Nat.min_eq_left (by omega)]
  · rw [if_neg hz] at hbytes ⊢
    obtain ⟨hsize, rfl⟩ := hbytes
    exact ⟨by omega, Bytes.slice_part m.bytes a.toNat hin⟩

end Memory

namespace Engine

variable {e : Engine} {memory : Memory} {mode : FileMode} {pfn : Word} {page : List UInt8}

/-! ### Rows of a page -/

/-- The label of a row, unless working it out needs more than 64 bits. -/
def label? (base : Word) (r : Nat) : Option Word :=
  (Word.mul? (UInt64.ofNat r) 16).bind base.add?

/-- Rows that hold a page of a memory, each at its own place. -/
structure ShowsPage (e : Engine) (memory : Memory) (pfn : Word) (page : List UInt8)
    (rows : List HexDump.Row) : Prop where
  length : page.length = e.pageSize
  whole : rows.flatMap HexDump.Row.bytes = page
  count : rows.length = e.pageSize / 16
  full : ∀ row ∈ rows, row.bytes.length = 16
  /-- Nothing on the way to a label needs more than 64 bits. -/
  labels : ∃ base, pfn.mul? (UInt64.ofNat e.pageSize) = some base ∧
    memory.readBytes ⟨base⟩ e.pageSize = .ok page ∧
    ∀ (r : Nat) (row : HexDump.Row), rows[r]? = some row → label? base r = some row.address
  /-- The bytes of a row are those from its label on. -/
  placed : ∀ (r : Nat) (row : HexDump.Row), rows[r]? = some row →
    row.address.toNat = pfn.toNat * e.pageSize + 16 * r ∧
      memory.readBytes ⟨row.address⟩ 16 = .ok row.bytes

/-- A page is a number of full rows. -/
theorem rowSize_dvd_pageSize (hu : e.geometry.isUsable = true) :
    HexDump.rowSize ∣ e.pageSize := by
  have hoffset : 4 ≤ e.geometry.offsetBits := by
    simp only [Geometry.isUsable, Bool.and_eq_true, decide_eq_true_eq] at hu
    exact hu.1.1.1.1.1
  exact Nat.pow_dvd_pow 2 hoffset

theorem label?_eq_some_iff {base label : Word} {r : Nat} (hr : r < 2 ^ 63) :
    label? base r = some label ↔ label.toNat = base.toNat + 16 * r := by
  have hindex : (UInt64.ofNat r).toNat = r := by
    rw [UInt64.toNat_ofNat', Nat.mod_eq_of_lt (by omega)]
  have hsixteen : (16 : Word).toNat = 16 := rfl
  have hcomm : label? base r =
      (Word.mul? (UInt64.ofNat r) 16).bind fun product => Word.add? product base := by
    rw [label?]
    congr 1
    funext product
    exact Word.add?_comm base product
  rw [hcomm, Word.mul?_bind_add?_eq_some_iff, hindex, hsixteen, Nat.mul_comm, Nat.add_comm]

theorem showsPage (hu : e.geometry.isUsable = true) (hb : memory.backing = .file mode)
    (hfits : e.pageStart pfn < 2 ^ 64)
    (hread : memory.readBytes (e.pageAt pfn) e.pageSize = .ok page) :
    e.ShowsPage memory pfn page (HexDump.rows (e.pageAt pfn).word page) := by
  have hpos := e.pageSize_pos
  have hle := pageSize_le hu
  have hbase : (e.pageAt pfn).toNat = e.pageStart pfn := toNat_pageAt hu hfits
  have hlength : page.length = e.pageSize := Memory.length_of_readBytes hread
  have hrows : page.length = HexDump.rowSize * (e.pageSize / 16) :=
    hlength.trans (Nat.mul_div_cancel' (rowSize_dvd_pageSize hu)).symm
  -- a file has no bytes from position `2 ^ 63` on
  have hend : e.pageStart pfn + e.pageSize < 2 ^ 63 := by
    rw [← hbase]
    exact ((Memory.readBytes_file_iff hb (by omega)).mp hread).1.1
  have hplaced : ∀ (r : Nat) (row : HexDump.Row),
      (HexDump.rows (e.pageAt pfn).word page)[r]? = some row →
        row.address.toNat = e.pageStart pfn + 16 * r ∧
          memory.readBytes ⟨row.address⟩ 16 = .ok row.bytes := by
    intro r row hrow
    obtain ⟨hr, haddress, hbytes⟩ := HexDump.eq_of_getElem?_rows hrow
    have hwhole : page.length = 16 * (e.pageSize / 16) := hrows
    simp only [HexDump.rowSize] at hr haddress hbytes
    have hplace : (⟨row.address⟩ : PhysicalAddress) =
        (e.pageAt pfn).add (UInt64.ofNat (16 * r)) := congrArg Address.mk haddress
    constructor
    · show (⟨row.address⟩ : PhysicalAddress).toNat = _
      rw [hplace, Address.toNat_add (by omega), hbase]
    · rw [hplace, hbytes]
      exact Memory.readBytes_part hb hread (by decide) (by omega)
  refine ⟨hlength, HexDump.flatMap_rows .., HexDump.length_rows hrows,
    fun row hrow => HexDump.length_bytes_of_mem_rows hrows hrow,
    ⟨(e.pageAt pfn).word, ?_, hread, ?_⟩, hplaced⟩
  · rw [Word.mul?_eq_some_iff, toNat_pageSize hu]
    exact hbase
  · intro r row hrow
    obtain ⟨hr, -⟩ := HexDump.eq_of_getElem?_rows hrow
    simp only [HexDump.rowSize] at hr
    rw [label?_eq_some_iff (by omega), (hplaced r row hrow).1, ← hbase]
    rfl

theorem read_of_readPage (hu : e.geometry.isUsable = true) {others : Bystander} {m : Machine}
    {es : List Event} {after : Machine}
    (h : (e.readPage pfn e.pageSize).runOn others m = some ⟨es, after, .ok page⟩) :
    e.pageStart pfn < 2 ^ 64 ∧ m.memory.readBytes (e.pageAt pfn) e.pageSize = .ok page := by
  rw [runOn_readPage] at h
  cases haddress : e.pageAddress pfn e.pageSize with
  | error err =>
    rw [haddress] at h
    cases h
  | ok address =>
    obtain ⟨-, hfits, rfl⟩ := pageAddress_eq_ok hu haddress
    refine ⟨hfits, ?_⟩
    rw [haddress] at h
    cases hread : m.memory.readBytes (e.pageAt pfn) e.pageSize with
    | error r =>
      simp only [Machine.perform, hread] at h
      cases h
    | ok found =>
      simp only [Machine.perform, hread] at h
      cases h
      rfl

theorem runOn_readPage_of_read (hu : e.geometry.isUsable = true) (others : Bystander) {m : Machine}
    (hfits : e.pageStart pfn < 2 ^ 64)
    (hread : m.memory.readBytes (e.pageAt pfn) e.pageSize = .ok page) :
    (e.readPage pfn e.pageSize).runOn others m =
      some ⟨[.readBytes (e.pageAt pfn) e.pageSize], m, .ok page⟩ := by
  rw [runOn_readPage, pageAddress_of_fits hu rfl hfits]
  simp only [Machine.perform, hread]

/-- A text that reads back as rows that hold a page. -/
def PrintsPage (e : Engine) (memory : Memory) (pfn : Word) (page : List UInt8) (text : String) :
    Prop :=
  ∃ rows, HexDump.ofText? text = some rows ∧ e.ShowsPage memory pfn page rows

theorem ShowsPage.prints {rows : List HexDump.Row} (h : e.ShowsPage memory pfn page rows) :
    e.PrintsPage memory pfn page (Text.unlines (rows.map HexDump.Row.text)) := by
  refine ⟨rows, HexDump.ofText?_unlines fun row hrow => ?_, h⟩
  have hfull := h.full row hrow
  exact List.ne_nil_of_length_pos (by omega)

end Engine

namespace CommandLine

variable {e : Engine} {others : Bystander} {m after : Machine} {es : List Event} {mode : FileMode}
  {pfn : Word} {page : List UInt8}

/-! ### Commands that print a page -/

theorem Command.runOn_readPage (output : Option String)
    (h : (e.readPage pfn e.pageSize).runOn others m = some ⟨es, after, .ok page⟩) :
    ((Command.readPage pfn output).operation e).runOn others m =
      some ⟨es, after, .ok (.ok (.page (e.pageAt pfn).word page))⟩ := by
  show (e.readPage pfn e.pageSize >>= fun bytes =>
    pure (Except.ok (Finding.page (e.pageAt pfn).word bytes))).runOn others m = _
  rw [Op.runOn_map, h]
  rfl

theorem prints_page (hu : e.geometry.isUsable = true) (hb : m.memory.backing = .file mode)
    (h : (e.readPage pfn e.pageSize).runOn others m = some ⟨es, after, .ok page⟩) :
    e.PrintsPage m.memory pfn page
      (Text.unlines ((Finding.page (e.pageAt pfn).word page).lines e)) := by
  obtain ⟨hfits, hread⟩ := Engine.read_of_readPage hu h
  exact (Engine.showsPage hu hb hfits hread).prints

namespace Invocation

theorem run_readPage {i : Invocation} {t opened : FileTree} {memory : Memory}
    (hc : i.command = .readPage pfn none) (he : i.engine = .ok e)
    (hopen : t.openMemory i.memory false = .ok (memory, opened))
    (h : (e.readPage pfn e.pageSize).runOn .yielding (i.machine memory) =
      some ⟨es, after, .ok page⟩) :
    ((i.run FileTree.access).run t).1.exit = 0 ∧
      e.PrintsPage memory pfn page ((i.run FileTree.access).run t).1.stdout := by
  have hwrites : i.command.writes = false := by
    rw [hc]
    rfl
  have hsame : (i.perform memory).memory = memory := by
    rw [memory_perform he, memory_effect_of_looking hwrites]
  have hreply : (i.effect e memory).reply =
      .ok (.ok (.page (e.pageAt pfn).word page)) := by
    have hrun := Command.runOn_readPage none h
    rw [← hc] at hrun
    rw [effect_eq hrun]
  have hresult : (i.perform memory).result =
      .ok (.lines ((Finding.page (e.pageAt pfn).word page).lines e)) := by
    have hsaves : i.command.saves = false := by
      rw [hc]
      rfl
    rw [result_perform he, hreply]
    exact congrArg Except.ok (Command.product_of_printing hsaves _)
  obtain ⟨mode, hb⟩ := FileTree.backing_openMemory hopen
  rw [← hwrites] at hopen
  rw [run_opened hopen hsame, finish_lines hresult]
  exact ⟨rfl, prints_page (engine_eq he).2 hb h⟩

end Invocation

/-- A page that was read from a file is printed whole: the rows read back, full and in order, as the
bytes of the page, and each is labelled with the place of its first byte in arithmetic that does not
leave 64 bits. This is so for every engine and for every run of the program. -/
theorem dumps_pages (pfn : Word) :
    (∀ {arch g e mode others m es after page}, Engine.ofGeometry arch g = .ok e →
      m.memory.backing = .file mode →
      (e.readPage pfn e.pageSize).runOn others m = some ⟨es, after, .ok page⟩ →
        ∃ finding : Finding, ((Command.readPage pfn none).operation e).runOn others m =
            some ⟨es, after, .ok (.ok finding)⟩ ∧
          e.PrintsPage m.memory pfn page (Text.unlines (finding.lines e))) ∧
    ∀ {arguments i t e memory opened es after page},
      Invocation.ofArguments arguments = .ok i → i.command = .readPage pfn none →
      i.engine = .ok e → t.openMemory i.memory false = .ok (memory, opened) →
      (e.readPage pfn e.pageSize).runOn .yielding (i.machine memory) =
        some ⟨es, after, .ok page⟩ →
        ((run FileTree.access arguments).run t).1.exit = 0 ∧
          e.PrintsPage memory pfn page ((run FileTree.access arguments).run t).1.stdout := by
  constructor
  · intro arch g e mode others m es after page he hb h
    obtain ⟨hu, rfl⟩ := Engine.ofGeometry_eq_ok_iff.mp he
    exact ⟨_, Command.runOn_readPage none h, prints_page hu hb h⟩
  · intro arguments i t e memory opened es after page hi hc he hopen h
    have hrun : run FileTree.access arguments = i.run FileTree.access := by
      unfold run
      rw [hi]
    rw [hrun]
    exact Invocation.run_readPage hc he hopen h

/-- Two pages of 4096 bytes. -/
def twoPageImage : Array UInt8 := Array.replicate 8192 0x5a

def FileTree.twoPages : FileTree :=
  ⟨[(["mem.img"], .file twoPageImage)], [], [], #[], #[]⟩

/-- The second of two pages in a file is read on any machine and printed by the program. -/
theorem dumps_pages_second :
    (∀ m : Machine, m.memory = ⟨.file .readOnly, twoPageImage⟩ →
      ∃ finding : Finding,
        ((Command.readPage 1 none).operation ⟨.x86_64, .fourLevel⟩).runOn .yielding m =
            some ⟨[.readBytes ⟨0x1000⟩ 4096], m, .ok (.ok finding)⟩ ∧
          Engine.PrintsPage ⟨.x86_64, .fourLevel⟩ m.memory 1 (List.replicate 4096 0x5a)
            (Text.unlines (finding.lines ⟨.x86_64, .fourLevel⟩))) ∧
      ∃ done : Outcome,
        ((run FileTree.access
          ["-m", "mem.img", "-a", "x86_64", "-r", "0", "read-page", "1"]).run .twoPages).1 = done ∧
        done.exit = 0 ∧
        Engine.PrintsPage ⟨.x86_64, .fourLevel⟩ ⟨.file .readOnly, twoPageImage⟩ 1
          (List.replicate 4096 0x5a) done.stdout := by
  have hbytes : Memory.readBytes ⟨.file .readOnly, twoPageImage⟩ ⟨0x1000⟩ 4096 =
      .ok (List.replicate 4096 0x5a) := by
    refine (Memory.readBytes_file_iff rfl (by decide)).mpr ⟨⟨by decide, by decide, by decide⟩, ?_⟩
    rw [if_neg (by decide)]
    simp [Bytes.slice, Address.toNat, Memory.size, twoPageImage]
  have hread : ∀ m : Machine, m.memory = ⟨.file .readOnly, twoPageImage⟩ →
      ((⟨.x86_64, .fourLevel⟩ : Engine).readPage 1 4096).runOn .yielding m =
        some ⟨[.readBytes ⟨0x1000⟩ 4096], m, .ok (List.replicate 4096 0x5a)⟩ := by
    intro m hm
    rw [← hm] at hbytes
    have hfits : Engine.pageStart ⟨.x86_64, .fourLevel⟩ 1 < 2 ^ 64 := by decide
    exact Engine.runOn_readPage_of_read rfl .yielding hfits hbytes
  obtain ⟨hfinding, hrun⟩ := dumps_pages 1
  refine ⟨fun m hm => ?_, _, rfl, ?_⟩
  · exact hfinding (rfl : Engine.ofGeometry .x86_64 .fourLevel = .ok _) (by rw [hm]) (hread m hm)
  · exact hrun rfl rfl rfl rfl (hread _ rfl)

end CommandLine

end Paging
