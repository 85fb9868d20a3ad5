import Paging.Machine

/-!
# Settled machines

A lock table is settled when every process has a space of its own, which is free unless the process
is held, so that nobody ever has to wait. A program that runs alone keeps its machine settled and
comes to an end (`Program.isSome_run`), which makes `Program.runSettled` total.
-/

namespace Paging

/-- Every process has a space of its own, which is free unless the process is held. -/
structure LockTable.Settled (t : LockTable) : Prop where
  bounded : ∀ {pid s}, t.processes.find? pid = some s → s < t.spaces.length
  own : ∀ {p q s}, t.processes.find? p = some s → t.processes.find? q = some s → p = q
  held : ∀ {pid h}, t.holds.find? pid = some h →
    h.gate = none ∧ t.processes.find? pid = some h.space
  free : ∀ {pid s}, t.processes.find? pid = some s → t.holds.find? pid = none → t.isFree s = true

namespace LockTable

theorem isFree_setHolder_of_ne (t : LockTable) {s r : SpaceId} (h : Option Holder) (hne : s ≠ r) :
    (t.setHolder s h).isFree r = t.isFree r := by
  simp [isFree, setHolder, hne]

theorem isFree_setHolder_none (t : LockTable) {s : SpaceId} (hs : s < t.spaces.length) :
    (t.setHolder s none).isFree s = true := by
  simp [isFree, setHolder, hs]

theorem isFree_setRoot (t : LockTable) (s r : SpaceId) (root : PhysicalAddress) :
    (t.setRoot s root).isFree r = t.isFree r := by
  simp only [isFree, setRoot, List.getElem?_modify]
  cases t.spaces[r]? with
  | none => rfl
  | some a => by_cases h : s = r <;> simp [h]

theorem settled_single (pid : Pid) (root : PhysicalAddress) :
    (empty.insertProcess pid root).2.Settled where
  bounded h := by
    simp only [insertProcess, bindProcess, PidMap.find?_insert, empty, PidMap.find?_empty] at h ⊢
    split at h <;> simp_all
  own h k := by
    simp only [insertProcess, bindProcess, PidMap.find?_insert, empty, PidMap.find?_empty] at h k
    split at h <;> split at k <;> simp_all
  held h := by simp [insertProcess, bindProcess, empty, PidMap.find?_empty] at h
  free h _ := by
    simp only [insertProcess, bindProcess, PidMap.find?_insert, empty, PidMap.find?_empty] at h
    split at h
    · simp only [List.length_nil, Option.some.injEq] at h
      subst h
      rfl
    · simp at h

/-- Taking or dropping a hold of one process, along with the lock of its space. -/
theorem Settled.hold {t : LockTable} (ht : t.Settled) {pid : Pid} {s : SpaceId} (count : Nat)
    (hs : t.processes.find? pid = some s) (holder : Option Holder) :
    { t.setHolder s holder with holds := t.holds.insert pid ⟨s, count, none⟩ }.Settled where
  bounded h := by simpa [setHolder] using ht.bounded h
  own h k := ht.own h k
  held {q h} hq := by
    simp only [PidMap.find?_insert] at hq
    split at hq
    · rename_i heq
      subst heq
      simp only [Option.some.injEq] at hq
      subst hq
      exact ⟨rfl, hs⟩
    · exact ht.held hq
  free {q r} hr hq := by
    simp only [PidMap.find?_insert] at hq
    split at hq
    · simp at hq
    · rename_i hne
      have hsr : s ≠ r := fun h => hne (ht.own hs (h ▸ hr))
      have := ht.free hr hq
      rwa [← isFree_setHolder_of_ne t holder hsr] at this

theorem Settled.drop {t : LockTable} (ht : t.Settled) {pid : Pid} {s : SpaceId}
    (hs : t.processes.find? pid = some s) :
    { t.setHolder s none with holds := t.holds.erase pid }.Settled where
  bounded h := by simpa [setHolder] using ht.bounded h
  own h k := ht.own h k
  held {q h} hq := by
    simp only [PidMap.find?_erase] at hq
    split at hq
    · simp at hq
    · exact ht.held hq
  free {q r} hr hq := by
    simp only [PidMap.find?_erase] at hq
    by_cases heq : pid = q
    · subst heq
      have hsr : s = r := Option.some.inj (hs.symm.trans hr)
      subst hsr
      exact isFree_setHolder_none t (ht.bounded hs)
    · rw [if_neg heq] at hq
      have hsr : s ≠ r := fun h => heq (ht.own hs (h ▸ hr))
      have := ht.free hr hq
      rwa [← isFree_setHolder_of_ne t none hsr] at this

theorem Settled.recount {t : LockTable} (ht : t.Settled) {pid : Pid} {h : Hold} (count : Nat)
    (hh : t.holds.find? pid = some h) :
    { t with holds := t.holds.insert pid { h with count := count } }.Settled where
  bounded h := ht.bounded h
  own h k := ht.own h k
  held {q k} hq := by
    simp only [PidMap.find?_insert] at hq
    split at hq
    · rename_i heq
      subst heq
      simp only [Option.some.injEq] at hq
      subst hq
      have hheld := ht.held hh
      exact ⟨hheld.1, hheld.2⟩
    · exact ht.held hq
  free {q r} hr hq := by
    simp only [PidMap.find?_insert] at hq
    split at hq
    · simp at hq
    · exact ht.free hr hq

theorem Settled.setRoot {t : LockTable} (ht : t.Settled) (s : SpaceId) (root : PhysicalAddress) :
    (t.setRoot s root).Settled where
  bounded h := by simpa [LockTable.setRoot] using ht.bounded h
  own h k := ht.own h k
  held h := ht.held h
  free h k := by
    rw [isFree_setRoot]
    exact ht.free h k

theorem Settled.release {t : LockTable} (ht : t.Settled) (pid : Pid) :
    (t.release pid).2.Settled := by
  rw [LockTable.release]
  cases hh : t.holds.find? pid with
  | none => exact ht
  | some h =>
    simp only
    split
    · exact ht
    · split
      · exact ht.drop (ht.held hh).2
      · exact ht.recount _ hh

/-- The first look at a settled table decides, and leaves it settled. -/
theorem Settled.start {t : LockTable} (ht : t.Settled) (pid : Pid) :
    (∀ phase, (t.start pid).progress ≠ .next phase) ∧ (t.start pid).table.Settled := by
  rw [LockTable.start]
  cases hh : t.holds.find? pid with
  | some h =>
    simp only [(ht.held hh).1]
    split
    · exact ⟨by simp, by simpa [(ht.held hh).1] using ht.recount (h.count + 1) hh⟩
    · exact ⟨by simp, ht⟩
  | none =>
    cases hs : t.processes.find? pid with
    | none => exact ⟨by simp, ht⟩
    | some s =>
      simp only [ht.free hs hh, ↓reduceIte]
      exact ⟨by simp, ht.hold 1 hs _⟩

theorem Settled.enterAlone {t : LockTable} (ht : t.Settled) (others : Bystander) (pid : Pid) :
    ∃ e, t.enterAlone others pid = some e ∧ e.table.Settled := by
  obtain ⟨hnext, hsettled⟩ := ht.start pid
  rw [LockTable.enterAlone]
  cases hp : (t.start pid).progress with
  | next phase => exact absurd hp (hnext phase)
  | granted s => exact ⟨_, rfl, hsettled⟩
  | refused e => exact ⟨_, rfl, hsettled⟩

end LockTable

theorem Machine.settled_perform {m : Machine} (hm : m.locks.Settled) (action : Action) :
    (m.perform action).machine.locks.Settled := by
  cases action with
  | release pid => exact hm.release pid
  | setRoot space root => exact hm.setRoot space root
  | readWord address =>
    simp only [perform]
    split <;> exact hm
  | writeWord address word =>
    simp only [perform]
    split <;> exact hm
  | readBytes address count =>
    simp only [perform]
    split <;> exact hm
  | writeBytes address bytes =>
    simp only [perform]
    split <;> exact hm
  | switchStrategy id =>
    simp only [perform]
    split <;> exact hm
  | readRoot _ | flush _ | strategy | readRegister | writeRegister _ | note _ => exact hm

theorem Program.isSome_run {α : Type} (others : Bystander) (p : Program α) (m : Machine)
    (hm : m.locks.Settled) : (p.run others m).isSome := by
  induction p generalizing m with
  | done a => rfl
  | act action next ih =>
    rw [Program.run, Option.isSome_map]
    exact ih _ _ (Machine.settled_perform hm action)
  | enter pid next ih =>
    obtain ⟨e, he, hs⟩ := hm.enterAlone others pid
    rw [Program.run, he, Option.bind_some, Option.isSome_map]
    exact ih _ _ hs

/-- Runs a program on a settled machine on which nobody else moves. -/
def Program.runSettled {α : Type} (p : Program α) (m : Machine) (hm : m.locks.Settled) : Effect α :=
  (p.run .yielding m).get (p.isSome_run .yielding m hm)

end Paging
