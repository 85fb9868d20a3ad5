import Paging.Proofs.Backends
import Paging.Proofs.FixedMemory
import Paging.Proofs.Layout
import Paging.Proofs.ReadBack

/-!
# Pages in and out of memory

Reading and writing a page is one access at a multiple of the page size (`runOn_readPage`,
`runOn_writePage`). A page that fits in the address space and lies inside the memory is written
exactly: it reads back, and no other page reads differently (`WritesPage.inside`). Whatever is
refused leaves the machine as it was. A request for a page answers what the call does
(`dispatch_readPage`, `dispatch_writePage`).
-/

namespace Paging

namespace Memory

variable {m : Memory} {a b : PhysicalAddress} {count : Nat} {bs : List UInt8}

/-- Bytes inside can be read and written. A file must be one that can exist: its positions are less
than `2 ^ 63`. -/
def TakesBytes (m : Memory) : Prop :=
  m.backing.IsFixed ∨ m.backing = .file .readWrite ∧ m.size < 2 ^ 63

theorem TakesBytes.ne_direct (h : m.TakesBytes) (offset : Word) : m.backing ≠ .direct offset := by
  rcases h with h | ⟨h, _⟩
  · exact ne_direct_of_isFixed h offset
  · rw [h]
    exact nofun

theorem plain_of_file (h : m.backing = .file .readWrite ∧ m.size < 2 ^ 63) :
    m.backing.Plain m.size ∧ m.backing.base = 0 := by
  rw [h.1]
  exact ⟨⟨rfl, h.2⟩, rfl⟩

theorem TakesBytes.withBytes (h : m.TakesBytes) : (m.withBytes a bs).TakesBytes := by
  unfold TakesBytes
  rw [(m.sameShape_withBytes a bs).size]
  exact h

theorem of_inside?_eq_some {found : Nat} (hb : ∀ offset, m.backing ≠ .direct offset)
    (h : m.inside? b count = some found) :
    m.backing.base ≤ b.toNat ∧ b.toNat - m.backing.base = found := by
  by_cases hin : m.Holds b count
  · rw [inside?_of_holds hb hin] at h
    exact ⟨hin.1, Option.some.inj h⟩
  · rw [inside?_of_not_holds hb hin] at h
    cases h

theorem readBytes_of_inside (h : m.TakesBytes) (hc : count ≠ 0) (hin : m.Holds a count) :
    m.readBytes a count = .ok (Bytes.slice m.bytes (a.toNat - m.backing.base)
      (a.toNat - m.backing.base + count)) := by
  rcases h with h | h
  · exact readBytes_of_holds h hin
  · obtain ⟨hplain, hbase⟩ := plain_of_file h
    obtain ⟨-, hstop⟩ := hin
    rw [hbase, Nat.sub_zero] at hstop ⊢
    exact readBytes_inside hplain hc hstop

theorem writeBytes_of_inside (h : m.TakesBytes) (hne : bs ≠ []) (hin : m.Holds a bs.length) :
    m.writeBytes a bs = .ok (m.withBytes a bs) := by
  unfold withBytes
  rcases h with h | h
  · exact writeBytes_of_holds h hin
  · obtain ⟨hplain, hbase⟩ := plain_of_file h
    obtain ⟨-, hstop⟩ := hin
    rw [hbase, Nat.sub_zero] at hstop ⊢
    exact writeBytes_inside hplain hne hstop

/-- Bytes apart from those written are read as before, whether they are refused or not. -/
theorem readBytes_apart
    (hapart : ∀ found, m.inside? b count = some found →
      a.toNat - m.backing.base + bs.length ≤ found ∨
        found + count ≤ a.toNat - m.backing.base) :
    (m.withBytes a bs).readBytes b count = m.readBytes b count := by
  have hinside := (m.sameShape_withBytes a bs).inside? b count
  unfold readBytes
  rw [hinside]
  cases hin : m.inside? b count with
  | none => rfl
  | some found =>
    have hslice := Bytes.slice_overwrite m.bytes (hapart found hin)
    simp only [withBytes, hslice]

/-- As many bytes are read as were asked for. -/
theorem length_of_readBytes (h : m.readBytes a count = .ok bs) : bs.length = count := by
  have hslice : ∀ start, m.inside? a count = some start →
      (Bytes.slice m.bytes start (start + count)).length = count := fun start hstart =>
    Bytes.length_slice (inside?_eq_some hstart).2
  unfold readBytes at h
  split at h
  · split at h
    · rename_i hzero
      cases h
      exact hzero.symm
    · split at h
      · cases h
      · split at h
        · cases h
          exact List.length_replicate
        · split at h
          · rename_i start hstart
            cases h
            exact hslice start hstart
          · cases h
  · split at h
    · rename_i start hstart
      cases h
      exact hslice start hstart
    · cases h

theorem writeBytes_readOnly (a : PhysicalAddress) (hb : m.backing = .file .readOnly)
    (hne : bs ≠ []) : ∃ r, m.writeBytes a bs = .error r ∧ r.error = .physicalAccess a := by
  have hwhy : ∃ why, writeFailure? .readOnly a bs.length = some why := by
    unfold writeFailure?
    split
    · exact ⟨_, rfl⟩
    · exact ⟨.badDescriptor, rfl⟩
  obtain ⟨why, hwhy⟩ := hwhy
  refine ⟨writeRefusal a bs.length why, ?_, rfl⟩
  unfold writeBytes
  rw [hb]
  simp only [List.isEmpty_iff, hne, if_false, hwhy]

end Memory

namespace Engine

variable (e : Engine) (others : Bystander) (m : Machine)

/-! ### Where pages lie -/

/-- The number of the first byte of a page, however large. -/
def pageStart (pfn : Word) : Nat := pfn.toNat * e.pageSize

/-- Where a page begins that fits in the address space. -/
def pageAt (pfn : Word) : PhysicalAddress := ⟨pfn * UInt64.ofNat e.pageSize⟩

/-- All of a page lies inside the memory, whether its addresses fit in 64 bits or not. -/
def PageInside (e : Engine) (memory : Memory) (pfn : Word) : Prop :=
  memory.backing.base ≤ e.pageStart pfn ∧
    e.pageStart pfn - memory.backing.base + e.pageSize ≤ memory.size

instance (memory : Memory) (pfn : Word) : Decidable (e.PageInside memory pfn) :=
  inferInstanceAs (Decidable (_ ∧ _))

section Usable

variable {e} (hu : e.geometry.isUsable = true) {pfn : Word} {count : Nat}
include hu

theorem pageSize_le : e.pageSize ≤ 2 ^ 21 := by
  have hoffset : e.geometry.offsetBits ≤ 21 := by
    simp only [Geometry.isUsable, Bool.and_eq_true, decide_eq_true_eq] at hu
    exact hu.1.1.1.1.2
  exact Nat.pow_le_pow_right (by decide) hoffset

theorem toNat_pageSize : (UInt64.ofNat e.pageSize).toNat = e.pageSize := by
  have hle := pageSize_le hu
  rw [UInt64.toNat_ofNat', Nat.mod_eq_of_lt (by omega)]

theorem toNat_pageAt (hfits : e.pageStart pfn < 2 ^ 64) :
    (e.pageAt pfn).toNat = e.pageStart pfn := by
  show (pfn * UInt64.ofNat e.pageSize).toNat = _
  rw [UInt64.toNat_mul, toNat_pageSize hu]
  exact Nat.mod_eq_of_lt hfits

theorem pageAddress_eq (hcount : count = e.pageSize) :
    e.pageAddress pfn count =
      if e.pageStart pfn < 2 ^ 64 then .ok (e.pageAt pfn)
      else .error (.physicalAccess ⟨~~~(0 : Word)⟩) := by
  rw [pageAddress, if_neg (not_not_intro hcount), Word.mul?, toNat_pageSize hu]
  by_cases hfits : e.pageStart pfn < 2 ^ 64
  · rw [if_pos hfits, if_pos (show pfn.toNat * e.pageSize < 2 ^ 64 from hfits)]
    rfl
  · rw [if_neg hfits, if_neg (show ¬pfn.toNat * e.pageSize < 2 ^ 64 from hfits)]

theorem holds_pageAt_iff {memory : Memory} (hfits : e.pageStart pfn < 2 ^ 64) :
    memory.Holds (e.pageAt pfn) e.pageSize ↔ e.PageInside memory pfn := by
  unfold Memory.Holds PageInside
  rw [toNat_pageAt hu hfits]

end Usable

/-- Another page does not overlap. -/
theorem pageStart_apart {pfn pfn' : Word} (h : pfn' ≠ pfn) :
    e.pageStart pfn + e.pageSize ≤ e.pageStart pfn' ∨
      e.pageStart pfn' + e.pageSize ≤ e.pageStart pfn := by
  have hne : pfn'.toNat ≠ pfn.toNat := fun heq => h (UInt64.toNat_inj.mp heq)
  unfold pageStart
  rcases Nat.lt_or_gt_of_ne hne with hlt | hlt
  · right
    rw [← Nat.succ_mul]
    exact Nat.mul_le_mul_right _ hlt
  · left
    rw [← Nat.succ_mul]
    exact Nat.mul_le_mul_right _ hlt

/-! ### Runs on pages -/

theorem runOn_readPage (pfn : Word) (count : Nat) :
    (e.readPage pfn count).runOn others m =
      match e.pageAddress pfn count with
      | .error err => some ⟨[], m, .error err⟩
      | .ok address => some (m.perform (.readBytes address count)) := by
  rw [readPage, Op.runOn_mk_pure_bind]
  cases e.pageAddress pfn count with
  | error err => rfl
  | ok address =>
    exact Op.runOn_act others (rfl : (Op.readBytes address count).run =
      .act (.readBytes address count) .done) m

/-- Reading a page changes nothing, whatever comes of it. -/
theorem machine_readPage (pfn : Word) (count : Nat) :
    ∃ es r, (e.readPage pfn count).runOn others m = some ⟨es, m, r⟩ := by
  rw [runOn_readPage]
  cases e.pageAddress pfn count with
  | error err => exact ⟨_, _, rfl⟩
  | ok address =>
    cases hread : m.memory.readBytes address count <;> simp only [Machine.perform, hread] <;>
      exact ⟨_, _, rfl⟩

theorem runOn_writePage (pfn : Word) (bytes : List UInt8) :
    (e.writePage pfn bytes).runOn others m =
      match e.pageAddress pfn bytes.length with
      | .error err => some ⟨[], m, .error err⟩
      | .ok address => some (m.perform (.writeBytes address bytes)) := by
  rw [writePage, Op.runOn_mk_pure_bind]
  cases e.pageAddress pfn bytes.length with
  | error err => rfl
  | ok address =>
    exact Op.runOn_act others (rfl : (Op.writeBytes address bytes).run =
      .act (.writeBytes address bytes) .done) m

/-- A page was replaced: it reads back, and no other page reads differently, be it inside or not. -/
structure PageReplaced (e : Engine) (others : Bystander) (m : Machine) (pfn : Word)
    (bytes : List UInt8) (after : Machine) : Prop where
  readBack : ∃ es, (e.readPage pfn e.pageSize).runOn others after = some ⟨es, after, .ok bytes⟩
  elsewhere : ∀ pfn', pfn' ≠ pfn → ∀ count, ∃ es r,
    (e.readPage pfn' count).runOn others m = some ⟨es, m, r⟩ ∧
      (e.readPage pfn' count).runOn others after = some ⟨es, after, r⟩
  rest : ∃ memory, after = { m with memory := memory } ∧ memory.SameShape m.memory

/-- What writing a page comes to. -/
structure WritesPage (e : Engine) (others : Bystander) (m : Machine) (pfn : Word)
    (bytes : List UInt8) : Prop where
  wrongSize : bytes.length ≠ e.pageSize → (e.writePage pfn bytes).runOn others m =
    some ⟨[], m, .error (.bufferSize e.pageSize bytes.length)⟩
  tooFar : bytes.length = e.pageSize → 2 ^ 64 ≤ e.pageStart pfn →
    (e.writePage pfn bytes).runOn others m =
      some ⟨[], m, .error (.physicalAccess ⟨~~~(0 : Word)⟩)⟩
  outside : bytes.length = e.pageSize → e.pageStart pfn < 2 ^ 64 → m.memory.backing.IsFixed →
    ¬e.PageInside m.memory pfn → ∃ es, (e.writePage pfn bytes).runOn others m =
      some ⟨es, m, .error (.physicalAccess (e.pageAt pfn))⟩
  inside : bytes.length = e.pageSize → e.pageStart pfn < 2 ^ 64 → m.memory.TakesBytes →
    e.PageInside m.memory pfn → ∃ es after,
      (e.writePage pfn bytes).runOn others m = some ⟨es, after, .ok ()⟩ ∧
        e.PageReplaced others m pfn bytes after
  /-- A file that is open for reading only takes no page, inside or not. -/
  readOnly : bytes.length = e.pageSize → e.pageStart pfn < 2 ^ 64 →
    m.memory.backing = .file .readOnly → ∃ es, (e.writePage pfn bytes).runOn others m =
      some ⟨es, m, .error (.physicalAccess (e.pageAt pfn))⟩
  refused : ∀ es after err,
    (e.writePage pfn bytes).runOn others m = some ⟨es, after, .error err⟩ → after = m

section Written

variable {e m} {pfn : Word} {bytes : List UInt8}

theorem machine_of_refused {a : PhysicalAddress} {bs : List UInt8} {err : Error}
    (h : (m.perform (.writeBytes a bs)).reply = .error err) :
    (m.perform (.writeBytes a bs)).machine = m := by
  cases hw : m.memory.writeBytes a bs with
  | ok memory =>
    simp only [Machine.perform, hw] at h
    cases h
  | error r => simp only [Machine.perform, hw]

theorem machine_writePage {es : List Event} {after : Machine} {err : Error}
    (h : (e.writePage pfn bytes).runOn others m = some ⟨es, after, .error err⟩) : after = m := by
  rw [runOn_writePage] at h
  cases hp : e.pageAddress pfn bytes.length with
  | error refused =>
    rw [hp] at h
    cases h
    rfl
  | ok address =>
    rw [hp] at h
    have heff := Option.some.inj h
    have hmachine : (m.perform (.writeBytes address bytes)).machine = m :=
      machine_of_refused (by rw [heff])
    rw [← hmachine, heff]

variable (hu : e.geometry.isUsable = true)
include hu

theorem pageAddress_eq_ok {count : Nat} {address : PhysicalAddress}
    (h : e.pageAddress pfn count = .ok address) :
    count = e.pageSize ∧ e.pageStart pfn < 2 ^ 64 ∧ address = e.pageAt pfn := by
  by_cases hcount : count = e.pageSize
  · rw [pageAddress_eq hu hcount] at h
    by_cases hfits : e.pageStart pfn < 2 ^ 64
    · rw [if_pos hfits] at h
      cases h
      exact ⟨hcount, hfits, rfl⟩
    · rw [if_neg hfits] at h
      cases h
  · rw [pageAddress, if_pos hcount] at h
    cases h

theorem pageAddress_of_fits {count : Nat} (hcount : count = e.pageSize)
    (hfits : e.pageStart pfn < 2 ^ 64) : e.pageAddress pfn count = .ok (e.pageAt pfn) := by
  rw [pageAddress_eq hu hcount, if_pos hfits]

theorem holds_of_inside (hlen : bytes.length = e.pageSize) (hfits : e.pageStart pfn < 2 ^ 64)
    (hin : e.PageInside m.memory pfn) : m.memory.Holds (e.pageAt pfn) bytes.length := by
  rw [hlen]
  exact (holds_pageAt_iff hu hfits).mpr hin

theorem readBytes_withBytes (hlen : bytes.length = e.pageSize) (hfits : e.pageStart pfn < 2 ^ 64)
    (htakes : m.memory.TakesBytes) (hin : e.PageInside m.memory pfn) :
    (m.memory.withBytes (e.pageAt pfn) bytes).readBytes (e.pageAt pfn) e.pageSize =
      .ok bytes := by
  have hpos := e.pageSize_pos
  have hholds := holds_of_inside hu hlen hfits hin
  have hholds' := hholds
  rw [← Memory.holds_withBytes, hlen] at hholds'
  rw [Memory.readBytes_of_inside htakes.withBytes (by omega) hholds', ← hlen]
  exact congrArg Except.ok (Bytes.slice_overwrite_self _ hholds.2)

theorem readPage_elsewhere (hlen : bytes.length = e.pageSize) (hfits : e.pageStart pfn < 2 ^ 64)
    (hdirect : ∀ offset, m.memory.backing ≠ .direct offset) {pfn' : Word} (hne : pfn' ≠ pfn)
    (hbase : m.memory.backing.base ≤ e.pageStart pfn) (count : Nat) : ∃ es r,
      (e.readPage pfn' count).runOn others m = some ⟨es, m, r⟩ ∧
        (e.readPage pfn' count).runOn others
            { m with memory := m.memory.withBytes (e.pageAt pfn) bytes } =
          some ⟨es, { m with memory := m.memory.withBytes (e.pageAt pfn) bytes }, r⟩ := by
  rw [runOn_readPage, runOn_readPage]
  cases hp : e.pageAddress pfn' count with
  | error err => exact ⟨_, _, rfl, rfl⟩
  | ok address =>
    obtain ⟨rfl, hfits', rfl⟩ := pageAddress_eq_ok hu hp
    have hread : (m.memory.withBytes (e.pageAt pfn) bytes).readBytes (e.pageAt pfn') e.pageSize =
        m.memory.readBytes (e.pageAt pfn') e.pageSize := by
      apply Memory.readBytes_apart
      intro found hfound
      obtain ⟨hbase', rfl⟩ := Memory.of_inside?_eq_some hdirect hfound
      have hstart := toNat_pageAt hu hfits
      have hstart' := toNat_pageAt hu hfits'
      rcases e.pageStart_apart hne with hafter | hbefore
      · left
        omega
      · right
        omega
    simp only [Machine.perform, hread]
    cases m.memory.readBytes (e.pageAt pfn') e.pageSize with
    | ok found => exact ⟨_, _, rfl, rfl⟩
    | error r => exact ⟨_, _, rfl, rfl⟩

theorem pageReplaced (hlen : bytes.length = e.pageSize) (hfits : e.pageStart pfn < 2 ^ 64)
    (htakes : m.memory.TakesBytes) (hin : e.PageInside m.memory pfn) :
    ∃ es after, (e.writePage pfn bytes).runOn others m = some ⟨es, after, .ok ()⟩ ∧
      e.PageReplaced others m pfn bytes after := by
  have hpos := e.pageSize_pos
  have hne : bytes ≠ [] := List.ne_nil_of_length_pos (by omega)
  have hholds := holds_of_inside hu hlen hfits hin
  refine ⟨[.writeBytes (e.pageAt pfn) bytes.length],
    { m with memory := m.memory.withBytes (e.pageAt pfn) bytes }, ?_, ?_, ?_, ?_⟩
  · rw [runOn_writePage, pageAddress_of_fits hu hlen hfits]
    simp only [Machine.perform, Memory.writeBytes_of_inside htakes hne hholds]
  · refine ⟨[.readBytes (e.pageAt pfn) e.pageSize], ?_⟩
    rw [runOn_readPage, pageAddress_of_fits hu rfl hfits]
    simp only [Machine.perform, readBytes_withBytes hu hlen hfits htakes hin]
  · exact fun pfn' hne' => readPage_elsewhere others hu hlen hfits htakes.ne_direct hne' hin.1
  · exact ⟨_, rfl, rfl, Bytes.size_overwrite ..⟩

theorem writePage_refused (hlen : bytes.length = e.pageSize) (hfits : e.pageStart pfn < 2 ^ 64)
    {r : Refusal} (hwrite : m.memory.writeBytes (e.pageAt pfn) bytes = .error r) :
    ∃ es, (e.writePage pfn bytes).runOn others m = some ⟨es, m, .error r.error⟩ := by
  rw [runOn_writePage, pageAddress_of_fits hu hlen hfits]
  simp only [Machine.perform, hwrite]
  exact ⟨_, rfl⟩

theorem writesPage : e.WritesPage others m pfn bytes where
  wrongSize hlen := by
    rw [runOn_writePage, pageAddress, if_pos hlen]
  tooFar hlen hfar := by
    rw [runOn_writePage, pageAddress_eq hu hlen, if_neg (Nat.not_lt.mpr hfar)]
  outside hlen hfits hfixed hout := by
    have hholds : ¬m.memory.Holds (e.pageAt pfn) bytes.length := by
      rw [hlen]
      exact mt (holds_pageAt_iff hu hfits).mp hout
    exact writePage_refused others hu hlen hfits (Memory.writeBytes_of_not_holds hfixed hholds)
  inside hlen hfits htakes hin := pageReplaced others hu hlen hfits htakes hin
  readOnly hlen hfits hb := by
    have hpos := e.pageSize_pos
    have hne : bytes ≠ [] := List.ne_nil_of_length_pos (by omega)
    obtain ⟨r, hwrite, herror⟩ := Memory.writeBytes_readOnly (e.pageAt pfn) hb hne
    rw [← herror]
    exact writePage_refused others hu hlen hfits hwrite
  refused _ _ _ := machine_writePage others

end Written

/-! ### Requests for pages -/

theorem runOn_dispatch (request : Request) :
    (e.dispatch request).runOn others m =
      ((e.answer request).runOn others m).map
        (Effect.after [.notice (.dispatching request)]) :=
  Op.runOn_bind_ok others (Op.runOn_note others (.dispatching request) m) fun _ => e.answer request

theorem dispatch_readPage (pfn : Word) :
    (e.dispatch (.readPage pfn)).runOn others m =
      ((e.readPage pfn e.pageSize).runOn others m).map fun eff =>
        ⟨.notice (.dispatching (.readPage pfn)) :: eff.events, eff.machine,
          eff.reply.map Response.page⟩ := by
  have hanswer : (e.answer (.readPage pfn)).runOn others m = _ :=
    Op.runOn_map others (e.readPage pfn e.pageSize) Response.page m
  rw [runOn_dispatch, hanswer, Option.map_map]
  rfl

theorem dispatch_writePage (pfn : Word) (bytes : List UInt8) :
    (e.dispatch (.writePage pfn bytes)).runOn others m =
      ((e.writePage pfn bytes).runOn others m).map fun eff =>
        ⟨.notice (.dispatching (.writePage pfn bytes)) :: eff.events, eff.machine,
          eff.reply.map fun _ => Response.done⟩ := by
  have hanswer : (e.answer (.writePage pfn bytes)).runOn others m = _ :=
    Op.runOn_map others (e.writePage pfn bytes) (fun _ => Response.done) m
  rw [runOn_dispatch, hanswer, Option.map_map]
  rfl

theorem length_of_readPage {e : Engine} {m : Machine} {pfn : Word} {count : Nat} {es : List Event}
    {after : Machine} {bytes : List UInt8}
    (h : (e.readPage pfn count).runOn others m = some ⟨es, after, .ok bytes⟩) :
    bytes.length = e.pageSize := by
  rw [runOn_readPage] at h
  cases hp : e.pageAddress pfn count with
  | error err =>
    rw [hp] at h
    cases h
  | ok address =>
    rw [hp] at h
    have hcount := (e.toNat_pageAddress_le hp).1
    cases hread : m.memory.readBytes address count with
    | error r =>
      simp only [Machine.perform, hread] at h
      cases h
    | ok found =>
      simp only [Machine.perform, hread] at h
      cases h
      exact (Memory.length_of_readBytes hread).trans hcount

/-- Pages go in and out of memory exactly. -/
structure TransfersPages (e : Engine) (others : Bystander) (m : Machine) : Prop where
  write : ∀ pfn bytes, e.WritesPage others m pfn bytes
  readLength : ∀ pfn count es after bytes,
    (e.readPage pfn count).runOn others m = some ⟨es, after, .ok bytes⟩ →
      bytes.length = e.pageSize
  /-- A request is told of and answers what the call does. -/
  readRequest : ∀ pfn, (e.dispatch (.readPage pfn)).runOn others m =
    ((e.readPage pfn e.pageSize).runOn others m).map fun eff =>
      ⟨.notice (.dispatching (.readPage pfn)) :: eff.events, eff.machine,
        eff.reply.map Response.page⟩
  writeRequest : ∀ pfn bytes, (e.dispatch (.writePage pfn bytes)).runOn others m =
    ((e.writePage pfn bytes).runOn others m).map fun eff =>
      ⟨.notice (.dispatching (.writePage pfn bytes)) :: eff.events, eff.machine,
        eff.reply.map fun _ => Response.done⟩

theorem transfers_pages {e : Engine} {arch : Architecture} {g : Geometry}
    (he : ofGeometry arch g = .ok e) (others : Bystander) (m : Machine) :
    e.TransfersPages others m := by
  obtain ⟨hu, rfl⟩ := ofGeometry_eq_ok_iff.mp he
  exact ⟨fun _ _ => writesPage others hu, fun _ _ _ _ _ => length_of_readPage others,
    dispatch_readPage _ others m, dispatch_writePage _ others m⟩

/-- The one page of a window that is the last page of all. -/
theorem transfers_pages_last :
    ofGeometry .x86_64 .smallest = .ok ⟨.x86_64, .smallest⟩ ∧
      PageInside ⟨.x86_64, .smallest⟩ ⟨.window 0xfffffffffffffff0, Array.replicate 16 0⟩
        0xfffffffffffffff ∧
      TransfersPages ⟨.x86_64, .smallest⟩ .yielding
        { Machine.selfMapped with
          memory := ⟨.window 0xfffffffffffffff0, Array.replicate 16 0⟩ } := by
  have hbuilt : ofGeometry .x86_64 .smallest = .ok ⟨.x86_64, .smallest⟩ := by rfl
  exact ⟨hbuilt, by decide, transfers_pages hbuilt .yielding _⟩

/-- A file of two pages, open for reading only. -/
def readOnlyPages : Machine :=
  { Machine.selfMapped with memory := ⟨.file .readOnly, Array.replicate 32 0⟩ }

/-- No page is written to a file that is open for reading only, though it lies inside. -/
theorem writePage_readOnly :
    PageInside ⟨.x86_64, .smallest⟩ readOnlyPages.memory 1 ∧
      (List.replicate 16 7).length = pageSize ⟨.x86_64, .smallest⟩ ∧
      (writePage ⟨.x86_64, .smallest⟩ 1 (List.replicate 16 7)).runOn .yielding readOnlyPages =
        some ⟨[.writeBytes ⟨16⟩ 16, .notice (.writeFailed 16 ⟨16⟩ .badDescriptor)], readOnlyPages,
          .error (.physicalAccess ⟨16⟩)⟩ :=
  ⟨by decide, rfl, rfl⟩

end Engine

end Paging
