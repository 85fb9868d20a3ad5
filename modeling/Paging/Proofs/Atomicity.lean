import Paging.Proofs.Effects
import Paging.Proofs.Slots

/-!
# Edits as a whole

An edit writes word after word and stops at the first that is refused, yet none of it is ever left
half done. Its walk has read every word that it writes. Of such words a backing takes all or none:
it takes all if it takes writes at all (`Memory.writeWords_of_accepted`), and otherwise refuses the
first (`Memory.writeWords_of_refused`).
-/

namespace Paging

namespace Memory

variable {m : Memory} {a : PhysicalAddress}

def takesWrites (m : Memory) : Bool :=
  match m.backing with
  | .file mode => mode.takesWrites
  | _ => true

theorem readFailure?_of_writeFailure? {mode : FileMode} {count : Nat} {why : FileFailure}
    (ht : mode.takesWrites = true) (h : writeFailure? mode a count = some why) :
    ∃ why', readFailure? mode a count = some why' := by
  unfold writeFailure? at h
  unfold readFailure?
  cases hstart : beyondFile a 0 with
  | true => exact ⟨_, rfl⟩
  | false =>
    cases hend : beyondFile a count with
    | true =>
      split
      · exact ⟨_, rfl⟩
      · split <;> exact ⟨_, rfl⟩
    | false =>
      cases mode with
      | readWrite | zeros => simp [hstart, hend, FileMode.takesWrites] at h
      | readOnly | directory | stream => cases ht

/-- A file that takes writes refuses one only where it refuses to read as many bytes. -/
theorem readBytes_refused {mode : FileMode} (hb : m.backing = .file mode)
    (ht : mode.takesWrites = true) {bs : List UInt8} {r : Refusal}
    (h : m.writeBytes a bs = .error r) : ∃ r', m.readBytes a bs.length = .error r' := by
  unfold writeBytes at h
  simp only [hb] at h
  split at h
  · cases h
  · rename_i hne
    have hlen : bs.length ≠ 0 := by simpa using hne
    cases hwf : writeFailure? mode a bs.length with
    | none =>
      simp only [hwf] at h
      split at h <;> cases h
    | some why =>
      obtain ⟨why', hrf⟩ := readFailure?_of_writeFailure? ht hwf
      simp only [readBytes, hb, hlen, if_false, hrf]
      exact ⟨_, rfl⟩

/-! ### Words that were read -/

theorem writeRefusal?_of_takesWrites (ht : m.takesWrites = true) (ha : m.Readable a) :
    m.writeRefusal? a = none := by
  have hwrite := writeWord_of_readable ha 0
  obtain ⟨w, hread⟩ := ha
  unfold readWord at hread
  unfold writeWord at hwrite
  split at hread
  · cases hread
  · rename_i hmis
    rw [if_neg hmis] at hwrite
    cases hr : m.writeRefusal? a with
    | none => rfl
    | some r =>
      rw [hr] at hwrite
      cases hb : m.backing with
      | file mode =>
        obtain ⟨r', hr'⟩ := readBytes_refused hb (by simpa [takesWrites, hb] using ht) hwrite
        rw [Bytes.length_ofWord] at hr'
        rw [hr'] at hread
        cases hread
      | emulated cursor | window base | direct offset =>
        simp [writeRefusal?, hmis, hb] at hr

theorem writeRefusal?_of_not_takesWrites (ht : m.takesWrites = false) (a : PhysicalAddress) :
    ∃ r, m.writeRefusal? a = some r := by
  cases hb : m.backing with
  | file mode =>
    simp only [takesWrites, hb] at ht
    have hsome : (writeFailure? mode a 8).isSome = true := by
      unfold writeFailure?
      split
      · rfl
      · split
        · rfl
        · simp [ht]
    obtain ⟨why, hwhy⟩ := Option.isSome_iff_exists.mp hsome
    simp only [writeRefusal?, hb, hwhy]
    split <;> exact ⟨_, rfl⟩
  | emulated cursor | window base | direct offset => simp [takesWrites, hb] at ht

theorem writeWords_of_accepted (stores : List (PhysicalAddress × Word)) (m : Memory)
    (h : ∀ s ∈ stores, m.Readable s.1 ∧ m.writeRefusal? s.1 = none) :
    (writeWords stores m).1 = none ∧ m.SameShape (writeWords stores m).2 := by
  induction stores generalizing m with
  | nil => exact ⟨rfl, .refl m⟩
  | cons s rest ih =>
    obtain ⟨a, w⟩ := s
    obtain ⟨hread, haccept⟩ := h (a, w) (List.mem_cons_self ..)
    have hw := writeWord_of_readable hread w
    rw [haccept] at hw
    have hshape := sameShape_laid m a w
    obtain ⟨hnone, hsame⟩ := ih (m.laid a w) fun s hs => by
      rw [← hshape.readable, ← hshape.writeRefusal?]
      exact h s (List.mem_cons_of_mem _ hs)
    rw [writeWords, hw]
    exact ⟨hnone, hshape.trans hsame⟩

theorem writeWords_of_refused (stores : List (PhysicalAddress × Word)) (m : Memory)
    (h : ∀ s ∈ stores, m.Readable s.1 ∧ ∃ r, m.writeRefusal? s.1 = some r) :
    (writeWords stores m).2 = m := by
  cases stores with
  | nil => rfl
  | cons s rest =>
    obtain ⟨a, w⟩ := s
    obtain ⟨hread, r, hrefuse⟩ := h (a, w) (List.mem_cons_self ..)
    have hw := writeWord_of_readable hread w
    rw [hrefuse] at hw
    rw [writeWords, hw]

end Memory

theorem Engine.readable_storesAt {e : Engine} {vaddr : VirtualAddress} {memory : Memory}
    {root : PhysicalAddress} {visits : List Visit}
    (hv : e.visited vaddr memory root = .ok visits) (mask : LevelMask)
    (patchFor : Level → EntryPatch) (ls : List Level) :
    ∀ s ∈ e.storesAt visits mask patchFor ls, memory.Readable s.1 := by
  intro s hs
  obtain ⟨l, _, v, hr, rfl⟩ := mem_storesAt hs
  exact ⟨v.raw, (e.faithful_visited vaddr hv v (reached?_eq_some hr).1).read⟩

/-- What an edit that has ended has done to memory, and what its failure comes from. -/
structure EntryEdit.Whole (others : Bystander) (e : Engine) (vaddr : VirtualAddress) (pid : Pid)
    (m : Machine) (eff : Effect (Except Error EditReport)) : Prop where
  nothing : ∀ err, eff.reply = .error err → eff.machine.memory = m.memory
  /-- Over memory that takes writes, only entering the space and walking can fail. -/
  unwritten : m.memory.takesWrites = true → ∀ err, eff.reply = .error err →
    err = .lockOverflow pid ∨
      ∃ es after, (e.resolve vaddr pid).runOn others m = some ⟨es, after, .error err⟩
  size : ∀ report, eff.reply = .ok report → eff.machine.memory.size = m.memory.size

namespace EntryEdit

theorem perform_whole {others : Bystander} (ho : others.Honest) {m : Machine} (d : EntryEdit)
    {e : Engine} {vaddr : VirtualAddress} {pid : Pid} {eff : Effect (Except Error EditReport)}
    (h : (d.perform e vaddr pid).runOn others m = some eff) :
    Whole others e vaddr pid m eff := by
  rw [perform_eq, Op.runOn_bind] at h
  obtain ⟨⟨es, after, reply⟩, hedit, hfollow⟩ := Option.bind_eq_some_iff.mp h
  obtain ⟨hmemory, err, hreply, hcause⟩ | ⟨space, held, visits, hgr, hv, hafter, hreply⟩ :=
    Engine.edit_cases ho hedit
  · dsimp only at hmemory hreply
    subst hreply
    cases hfollow
    exact ⟨fun _ _ => hmemory, fun _ _ herr => by cases herr; exact hcause, nofun⟩
  · have hread := Engine.readable_storesAt hv d.mask d.patchFor Level.all
    dsimp only at hafter hreply
    cases ht : m.memory.takesWrites with
    | true =>
      obtain ⟨hnone, hshape⟩ := Memory.writeWords_of_accepted _ m.memory fun s hs =>
        ⟨hread s hs, Memory.writeRefusal?_of_takesWrites ht (hread s hs)⟩
      rw [hnone] at hreply
      subst hafter hreply
      cases hfollow
      exact ⟨nofun, fun _ => nofun, fun _ _ => hshape.size.symm⟩
    | false =>
      have hsame := Memory.writeWords_of_refused _ m.memory fun s hs =>
        ⟨hread s hs, Memory.writeRefusal?_of_not_takesWrites ht s.1⟩
      rw [hsame] at hafter
      have hmemory : eff.machine.memory = m.memory := by
        subst hafter
        cases reply <;> cases hfollow <;> rfl
      exact ⟨fun _ _ => hmemory, fun hw => by simp [ht] at hw, fun _ _ => by rw [hmemory]⟩

/-- The table that maps itself, at the start of a file. -/
def selfMappedFile (mode : FileMode) : Machine :=
  { Machine.selfMapped with
    locks := (LockTable.empty.insertProcess 1 ⟨8⟩).2
    memory := ⟨.file mode, (Bytes.ofWord 1 ++ Bytes.ofWord 0).toArray⟩ }

/-- The same edit of a file that takes writes and of one that refuses the word it writes. -/
theorem perform_whole_selfMapped :
    Bystander.yielding.Honest ∧
      (∃ es after,
        ((setLastBit 3).perform ⟨.x86_64, .smallest⟩ ⟨0x10⟩ 1).runOn .yielding
            (selfMappedFile .readWrite) = some ⟨es, after, .ok (.changed true)⟩ ∧
          Whole .yielding ⟨.x86_64, .smallest⟩ ⟨0x10⟩ 1 (selfMappedFile .readWrite)
            ⟨es, after, .ok (.changed true)⟩) ∧
      ∃ es after,
        ((setLastBit 3).perform ⟨.x86_64, .smallest⟩ ⟨0x10⟩ 1).runOn .yielding
            (selfMappedFile .readOnly) = some ⟨es, after, .error (.physicalAccess ⟨8⟩)⟩ ∧
          Whole .yielding ⟨.x86_64, .smallest⟩ ⟨0x10⟩ 1 (selfMappedFile .readOnly)
            ⟨es, after, .error (.physicalAccess ⟨8⟩)⟩ :=
  ⟨Bystander.honest_yielding,
    ⟨_, _, rfl, perform_whole Bystander.honest_yielding (.setLastBit 3) rfl⟩,
    ⟨_, _, rfl, perform_whole Bystander.honest_yielding (.setLastBit 3) rfl⟩⟩

end EntryEdit

end Paging
