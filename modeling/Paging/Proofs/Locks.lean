import Paging.LockTable

/-!
# What moves of the lock table leave alone

A first look at the table comes to one of six ends (`started`) and a release to one of four
(`released`); everything else about them is read off these cases. Entering and releasing never touch
a root. A move that others make (`OutsideMove`) keeps the roots of all spaces and every pending
hold, because a release refuses a hold that is still pending.
-/

namespace Paging

namespace LockTable

/-! ### The cases of a first look and of a release -/

/-- All that a first look at the table can come to. -/
inductive Started (t : LockTable) (pid : Pid) : Step → Prop where
  | waits {hold : Hold} {gate : GateId} (hf : t.holds.find? pid = some hold)
      (hg : hold.gate = some gate) : Started t pid ⟨.next (.waiting gate), [], t⟩
  | joins {hold : Hold} (hf : t.holds.find? pid = some hold) (hg : hold.gate = none)
      (hc : hold.count + 1 < countLimit) :
      Started t pid ⟨.granted hold.space, [],
        { t with holds := t.holds.insert pid { hold with count := hold.count + 1 } }⟩
  | overflows {hold : Hold} (hf : t.holds.find? pid = some hold) (hg : hold.gate = none)
      (hc : ¬ hold.count + 1 < countLimit) :
      Started t pid ⟨.refused (.lockOverflow pid), [.notice (.countOverflow pid)], t⟩
  | unknown (hf : t.holds.find? pid = none) (hp : t.processes.find? pid = none) :
      Started t pid ⟨.refused (.processNotFound pid), [.notice (.unknownProcess pid)], t⟩
  | takes {s : SpaceId} (hf : t.holds.find? pid = none) (hp : t.processes.find? pid = some s)
      (hs : t.isFree s = true) :
      Started t pid ⟨.granted s, [.tryLock s true],
        { t.setHolder s (some (.table pid)) with holds := t.holds.insert pid ⟨s, 1, none⟩ }⟩
  | blocks {s : SpaceId} (hf : t.holds.find? pid = none) (hp : t.processes.find? pid = some s)
      (hs : t.isFree s = false) :
      Started t pid ⟨.next (.blocked s t.gates.length),
        [.tryLock s false, .notice (.waiting pid), .lock s],
        { t with
          holds := t.holds.insert pid ⟨s, 0, some t.gates.length⟩
          gates := t.gates ++ [false] }⟩

theorem started (t : LockTable) (pid : Pid) : Started t pid (t.start pid) := by
  unfold start
  cases hf : t.holds.find? pid with
  | some hold =>
    simp only
    cases hg : hold.gate with
    | some gate => exact .waits hf hg
    | none =>
      simp only
      split
      · rename_i hc
        have h := Started.joins hf hg hc
        rwa [hg] at h
      · rename_i hc
        exact .overflows hf hg hc
  | none =>
    simp only
    cases hp : t.processes.find? pid with
    | none => exact .unknown hf hp
    | some s =>
      simp only
      split
      · rename_i hs
        exact .takes hf hp hs
      · rename_i hs
        exact .blocks hf hp (by simpa using hs)

/-- All that a release can come to. -/
inductive Released (t : LockTable) (pid : Pid) : List Event × LockTable → Prop where
  | notHeld (hf : t.holds.find? pid = none) : Released t pid ([.notice (.notHeld pid)], t)
  | notAcquired {hold : Hold} (hf : t.holds.find? pid = some hold)
      (hc : hold.gate.isSome = true ∨ hold.count = 0) :
      Released t pid ([.notice (.notAcquired pid)], t)
  | last {hold : Hold} (hf : t.holds.find? pid = some hold) (hg : hold.gate = none)
      (hc : hold.count = 1) :
      Released t pid ([.unlock hold.space, .notice (.unlocked pid)],
        { t.setHolder hold.space none with holds := t.holds.erase pid })
  | more {hold : Hold} (hf : t.holds.find? pid = some hold) (hg : hold.gate = none)
      (hc : 1 < hold.count) :
      Released t pid ([],
        { t with holds := t.holds.insert pid { hold with count := hold.count - 1 } })

theorem released (t : LockTable) (pid : Pid) : Released t pid (t.release pid) := by
  unfold release
  cases hf : t.holds.find? pid with
  | none => exact .notHeld hf
  | some hold =>
    simp only
    split
    · rename_i hc
      exact .notAcquired hf hc
    · rename_i hc
      have hg : hold.gate = none := by
        cases hg : hold.gate with
        | none => rfl
        | some gate => simp [hg] at hc
      split
      · rename_i h1
        exact .last hf hg h1
      · rename_i h1
        exact .more hf hg (by omega)

variable (t : LockTable)

/-! ### Locks of spaces -/

theorem isFree_iff (s : SpaceId) :
    t.isFree s = true ↔ s < t.spaces.length ∧ t.holder? s = none := by
  unfold isFree holder?
  cases h : t.spaces[s]? with
  | none =>
    have hle := List.getElem?_eq_none_iff.mp h
    constructor
    · intro hf
      simp at hf
    · intro hf
      exact absurd hf.1 (Nat.not_lt.mpr hle)
  | some a =>
    have hlt := (List.getElem?_eq_some_iff.mp h).1
    simp [hlt, Option.isNone_iff_eq_none]

theorem lt_of_holder? {s : SpaceId} {h : Holder} (hs : t.holder? s = some h) :
    s < t.spaces.length := by
  unfold holder? at hs
  cases ha : t.spaces[s]? with
  | none => simp [ha] at hs
  | some a => exact (List.getElem?_eq_some_iff.mp ha).1

theorem holder?_setHolder {s : SpaceId} (h : Option Holder) (hs : s < t.spaces.length)
    (r : SpaceId) : (t.setHolder s h).holder? r = if s = r then h else t.holder? r := by
  unfold holder? setHolder
  simp only [List.getElem?_modify]
  by_cases hr : s = r
  · subst hr
    simp [hs]
  · cases t.spaces[r]? <;> simp [hr]

/-! ### Roots -/

theorem root_setHolder (s : SpaceId) (h : Option Holder) (r : SpaceId) :
    (t.setHolder s h).root r = t.root r := by
  unfold root setHolder
  simp only [List.getElem?_modify]
  cases t.spaces[r]? with
  | none => rfl
  | some a => by_cases hr : s = r <;> simp [hr]

theorem root_setRoot (s : SpaceId) (root : PhysicalAddress) (r : SpaceId) :
    (t.setRoot s root).root r = if s = r ∧ s < t.spaces.length then root else t.root r := by
  unfold LockTable.root setRoot
  simp only [List.getElem?_modify]
  by_cases hr : s = r
  · subst hr
    by_cases hs : s < t.spaces.length
    · simp [hs]
    · simp [hs]
  · cases t.spaces[r]? <;> simp [hr]

theorem setRoot_root (s : SpaceId) : t.setRoot s (t.root s) = t := by
  have hspaces : (t.spaces.modify s fun a => { a with root := t.root s }) = t.spaces := by
    apply List.ext_getElem?
    intro r
    rw [List.getElem?_modify]
    by_cases hr : s = r
    · subst hr
      unfold LockTable.root
      cases t.spaces[s]? <;> simp
    · simp [hr]
  unfold setRoot
  rw [hspaces]

theorem root_release (pid : Pid) (r : SpaceId) : (t.release pid).2.root r = t.root r := by
  have h := released t pid
  generalize t.release pid = out at h
  cases h with
  | notHeld hf => rfl
  | notAcquired hf hc => rfl
  | @last hold hf hg hc => exact root_setHolder t hold.space none r
  | more hf hg hc => rfl

theorem root_start (pid : Pid) (r : SpaceId) : (t.start pid).table.root r = t.root r := by
  have h := started t pid
  generalize t.start pid = out at h
  cases h with
  | @takes s hf hp hs => exact root_setHolder t s (some (.table pid)) r
  | waits hf hg | joins hf hg hc | overflows hf hg hc | unknown hf hp | blocks hf hp hs => rfl

theorem root_publish (pid : Pid) (r : SpaceId) : (t.publish pid).root r = t.root r := by
  unfold publish
  cases t.holds.find? pid <;> rfl

/-! ### Spaces are never given up -/

theorem length_spaces_release (pid : Pid) :
    (t.release pid).2.spaces.length = t.spaces.length := by
  have h := released t pid
  generalize t.release pid = out at h
  cases h with
  | last hf hg hc => simp [setHolder]
  | notHeld hf | notAcquired hf hc | more hf hg hc => rfl

end LockTable

/-! ### Moves of others -/

/-- A move of somebody who does not enter through the table: outsiders take and give back locks, the
process table changes, and a process is released by whoever likes to. -/
inductive OutsideMove where
  | lock (space : SpaceId)
  | unlock (space : SpaceId)
  | bindProcess (pid : Pid) (space : SpaceId)
  | insertProcess (pid : Pid) (root : PhysicalAddress)
  | removeProcess (pid : Pid)
  | release (pid : Pid)

namespace LockTable

def moved (t : LockTable) : OutsideMove → LockTable
  | .lock space => (t.outsideLock space).2
  | .unlock space => (t.outsideUnlock space).2
  | .bindProcess pid space => (t.bindProcess pid space).2
  | .insertProcess pid root => (t.insertProcess pid root).2
  | .removeProcess pid => (t.removeProcess pid).2
  | .release pid => (t.release pid).2

variable {t : LockTable}

theorem root_moved (move : OutsideMove) {r : SpaceId} (hr : r < t.spaces.length) :
    (t.moved move).root r = t.root r := by
  cases move with
  | lock space =>
    simp only [moved, outsideLock]
    split
    · exact root_setHolder t space (some .outsider) r
    · rfl
  | unlock space =>
    simp only [moved, outsideUnlock]
    split
    · exact root_setHolder t space none r
    · rfl
  | bindProcess pid space => rfl
  | insertProcess pid root =>
    show (((t.spaces ++ [⟨root, none⟩])[r]?).map (·.root)).getD .zero = t.root r
    rw [List.getElem?_append_left hr]
    rfl
  | removeProcess pid => rfl
  | release pid => exact root_release t pid r

theorem length_spaces_moved (move : OutsideMove) :
    t.spaces.length ≤ (t.moved move).spaces.length := by
  cases move with
  | lock space =>
    simp only [moved, outsideLock]
    split <;> simp [setHolder]
  | unlock space =>
    simp only [moved, outsideUnlock]
    split <;> simp [setHolder]
  | bindProcess pid space => exact Nat.le_refl _
  | insertProcess pid root => simp [moved, insertProcess, bindProcess]
  | removeProcess pid => exact Nat.le_refl _
  | release pid => exact Nat.le_of_eq (length_spaces_release t pid).symm

theorem release_of_gate {pid : Pid} {hold : Hold} (hf : t.holds.find? pid = some hold)
    (hg : hold.gate.isSome = true) : (t.release pid).2 = t := by
  simp [release, hf, hg]

theorem find?_release_of_ne {pid q : Pid} (hne : pid ≠ q) :
    (t.release pid).2.holds.find? q = t.holds.find? q := by
  have h := released t pid
  generalize t.release pid = out at h
  cases h with
  | notHeld hf | notAcquired hf hc => rfl
  | last hf hg hc =>
    show (t.holds.erase pid).find? q = t.holds.find? q
    rw [PidMap.find?_erase, if_neg hne]
  | more hf hg hc =>
    show (t.holds.insert pid _).find? q = t.holds.find? q
    rw [PidMap.find?_insert, if_neg hne]

theorem find?_moved_of_gate (move : OutsideMove) {pid : Pid} {hold : Hold}
    (hf : t.holds.find? pid = some hold) (hg : hold.gate.isSome = true) :
    (t.moved move).holds.find? pid = some hold := by
  cases move with
  | lock space =>
    simp only [moved, outsideLock]
    split <;> exact hf
  | unlock space =>
    simp only [moved, outsideUnlock]
    split <;> exact hf
  | bindProcess pid space => exact hf
  | insertProcess pid root => exact hf
  | removeProcess pid => exact hf
  | release q =>
    show (t.release q).2.holds.find? pid = some hold
    by_cases hq : q = pid
    · subst hq
      rw [release_of_gate hf hg]
      exact hf
    · rw [find?_release_of_ne hq]
      exact hf

end LockTable

end Paging
