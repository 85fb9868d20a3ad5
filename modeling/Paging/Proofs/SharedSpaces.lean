import Paging.Proofs.Gates

/-!
# Spaces that several processes name

References are counted per process, but a lock belongs to a space. A caller that finds the lock of
its space taken therefore waits for somebody outside only as long as no other process has ever named
that space; else it may be that the table itself has the lock for another process
(`World.considerate`). If that process is held by the same caller, it waits for itself for ever
(`World.waits_for_itself`). Entering the same process again never waits for the lock.
-/

namespace Paging

namespace LockTable

variable {t : LockTable} {pid q : Pid} {s r : SpaceId}

/-- The process has a hold of the space, pending or not. -/
def HasHold (t : LockTable) (pid : Pid) (s : SpaceId) : Prop :=
  ∃ hold, t.holds.find? pid = some hold ∧ hold.space = s

theorem hasHold_insert {holds : PidMap Hold} {hold : Hold}
    (h : HasHold { t with holds := holds.insert pid hold } q s) :
    (pid = q ∧ hold.space = s) ∨ HasHold { t with holds := holds } q s := by
  obtain ⟨found, hf, hs⟩ := h
  rw [PidMap.find?_insert] at hf
  split at hf
  · rename_i hq
    cases hf
    exact .inl ⟨hq, hs⟩
  · exact .inr ⟨found, hf, hs⟩

/-- A hold is of the space that the process named when it was begun. -/
theorem hasHold_start (h : (t.start pid).table.HasHold q s) :
    t.HasHold q s ∨ t.processes.find? q = some s := by
  have hst := started t pid
  generalize t.start pid = out at hst h
  cases hst with
  | waits hf hg | overflows hf hg hc | unknown hf hp => exact .inl h
  | @joins hold hf hg hc =>
    rcases hasHold_insert h with ⟨rfl, hs⟩ | h
    · exact .inl ⟨hold, hf, hs⟩
    · exact .inl h
  | takes hf hp hfree | blocks hf hp hfree =>
    rcases hasHold_insert h with ⟨rfl, rfl⟩ | h
    · exact .inr hp
    · exact .inl h

theorem hasHold_enterStep {phase : Phase} {now : Step} (hs : t.enterStep pid phase = some now)
    (h : now.table.HasHold q s) : t.HasHold q s ∨ t.processes.find? q = some s := by
  cases phase with
  | start =>
    cases hs
    exact hasHold_start h
  | waiting g | blocked r g =>
    simp only [enterStep] at hs
    split at hs <;> cases hs
    exact .inl h
  | opening r g =>
    cases hs
    exact .inl h
  | publishing r g =>
    cases hs
    refine .inl ?_
    unfold publish at h
    split at h
    · rename_i hold hf
      rcases hasHold_insert h with ⟨rfl, hs⟩ | h
      · exact ⟨hold, hf, hs⟩
      · exact h
    · exact h

theorem hasHold_release (h : (t.release pid).2.HasHold q s) : t.HasHold q s := by
  have hr := released t pid
  generalize t.release pid = out at hr h
  cases hr with
  | notHeld hf | notAcquired hf hc => exact h
  | more hf hg hc =>
    rcases hasHold_insert h with ⟨rfl, hs⟩ | h
    · exact ⟨_, hf, hs⟩
    · exact h
  | last hf hg hc =>
    obtain ⟨hold, hf, hs⟩ := h
    simp only [PidMap.find?_erase] at hf
    split at hf
    · cases hf
    · exact ⟨hold, hf, hs⟩

theorem hasHold_moved (move : OutsideMove) (h : (t.moved move).HasHold q s) : t.HasHold q s := by
  cases move with
  | lock space =>
    simp only [moved, outsideLock] at h
    split at h <;> exact h
  | unlock space =>
    simp only [moved, outsideUnlock] at h
    split at h <;> exact h
  | bindProcess pid space | insertProcess pid root | removeProcess pid => exact h
  | release pid => exact hasHold_release h

/-- Processes name only spaces that they may. -/
def Names (t : LockTable) (may : SpaceId → Pid → Prop) : Prop :=
  ∀ pid s, t.processes.find? pid = some s → may s pid

/-- A process that is held is entered again without a call on the lock of its space. -/
theorem start_of_held {n : Nat} (hf : t.holds.find? pid = some ⟨s, n + 1, none⟩)
    (hn : n + 2 < countLimit) :
    (t.start pid).progress = .granted s ∧ (t.start pid).events = [] := by
  simp [start, hf, hn]

end LockTable

theorem Machine.hasHold_perform (m : Machine) (action : Action) {pid : Pid} {s : SpaceId}
    (h : (m.perform action).machine.locks.HasHold pid s) : m.locks.HasHold pid s := by
  obtain ⟨_, _, hlocks⟩ | ⟨_, _, _, hlocks⟩ | ⟨_, hlocks⟩ := m.locks_perform action
  · exact LockTable.hasHold_release (hlocks ▸ h)
  · rw [hlocks] at h
    exact h
  · exact hlocks ▸ h

namespace World

variable {α : Type} {w w' : World α}

theorem Move.hasHold (hm : Move w w') {pid : Pid} {s : SpaceId}
    (h : w'.machine.locks.HasHold pid s) :
    w.machine.locks.HasHold pid s ∨ w.machine.locks.processes.find? pid = some s := by
  cases hm with
  | arrive p => exact .inl h
  | outside move => exact .inl (LockTable.hasHold_moved move h)
  | @call m before after c history now hs =>
    obtain ⟨rest, phase⟩ := c
    cases rest with
    | done a => cases hs
    | act action next =>
      cases hs
      exact .inl (m.hasHold_perform action h)
    | enter q next =>
      simp only [Caller.step, Option.map_eq_some_iff] at hs
      obtain ⟨step, hstep, rfl⟩ := hs
      exact LockTable.hasHold_enterStep hstep h

/-- Worlds that come about while processes name only spaces that they may. -/
inductive ReachableNaming (may : SpaceId → Pid → Prop) : World α → Prop where
  | start {m : Machine} (hf : ∀ pid, m.locks.holds.find? pid = none)
      (hh : ∀ s pid, m.locks.holder? s ≠ some (.table pid)) (hn : m.locks.Names may) :
      ReachableNaming may ⟨m, [], []⟩
  | move {w w' : World α} (hw : ReachableNaming may w) (hm : Move w w')
      (hn : w'.machine.locks.Names may) : ReachableNaming may w'

variable {may : SpaceId → Pid → Prop}

theorem ReachableNaming.reachable (h : ReachableNaming may w) : Reachable w := by
  induction h with
  | start hf hh hn => exact .start hf hh
  | move hw hm hn ih => exact ih.move hm

/-- This is no restriction if every process may name every space. -/
theorem Reachable.naming (h : Reachable w) : ReachableNaming (fun _ _ => True) w := by
  induction h with
  | start hf hh => exact .start hf hh fun _ _ _ => trivial
  | move hw hm ih => exact ih.move hm fun _ _ _ => trivial

theorem ReachableNaming.names (h : ReachableNaming may w) : w.machine.locks.Names may := by
  cases h with
  | start hf hh hn => exact hn
  | move hw hm hn => exact hn

theorem may_of_hasHold (h : ReachableNaming may w) {pid : Pid} {s : SpaceId}
    (hs : w.machine.locks.HasHold pid s) : may s pid := by
  induction h with
  | start hf hh hn =>
    obtain ⟨hold, hfind, _⟩ := hs
    rw [hf] at hfind
    cases hfind
  | move hw hm hn ih =>
    rcases hm.hasHold hs with hs | hp
    · exact ih hs
    · exact hw.names pid s hp

theorem hasHold_of_holder? (h : Reachable w) {pid : Pid} {s : SpaceId}
    (hs : w.machine.locks.holder? s = some (.table pid)) : w.machine.locks.HasHold pid s := by
  have hst := (kept h).standing pid
  generalize w.initiators pid = phases at hst
  generalize Account.enter pid (some .idle) w.history = a at hst
  cases hst with
  | absent hf hh | waiting hf hh => exact absurd hs (hh s)
  | taken hf hh | held hf hh => exact ⟨_, hf, ((hh s).mp hs).symm⟩

/-- A caller that enters the process now would wait for the lock of the space. -/
def Blocks (w : World α) (pid : Pid) (s : SpaceId) : Prop :=
  ∃ gate, (w.machine.locks.start pid).progress = .next (.blocked s gate)

/-- For whom callers wait that find the lock of their space taken. -/
structure Considerate (may : SpaceId → Pid → Prop) (w : World α) : Prop where
  /-- Whoever holds a process can enter it again at once, as long as references can be counted. -/
  rejoined : ∀ pid s n, w.machine.locks.holds.find? pid = some ⟨s, n + 1, none⟩ →
    n + 2 < LockTable.countLimit →
    (w.machine.locks.start pid).progress = .granted s ∧ (w.machine.locks.start pid).events = []
  /-- The lock is an outsider's, or the table has it for another process that named the space. -/
  blocked : ∀ pid s, w.Blocks pid s → s < w.machine.locks.spaces.length →
    w.machine.locks.holder? s = some .outsider ∨
    ∃ q, q ≠ pid ∧ w.machine.locks.holder? s = some (.table q) ∧
      w.machine.locks.HasHold q s ∧ may s q ∧ may s pid
  /-- Where no two processes may name one space, callers wait for outsiders only. -/
  outside : (∀ s p q, may s p → may s q → p = q) → ∀ pid s, w.Blocks pid s →
    s < w.machine.locks.spaces.length → w.machine.locks.holder? s = some .outsider
  /-- There, whoever holds a space enters it again by whatever names it. -/
  again : (∀ s p q, may s p → may s q → p = q) → ∀ pid q s n,
    w.machine.locks.holds.find? pid = some ⟨s, n + 1, none⟩ → n + 2 < LockTable.countLimit →
    w.machine.locks.processes.find? q = some s →
    (w.machine.locks.start q).progress = .granted s ∧ (w.machine.locks.start q).events = []

theorem holder?_of_blocks (h : ReachableNaming may w) {pid : Pid} {s : SpaceId}
    (hb : w.Blocks pid s) (hlt : s < w.machine.locks.spaces.length) :
    w.machine.locks.holder? s = some .outsider ∨
    ∃ q, q ≠ pid ∧ w.machine.locks.holder? s = some (.table q) ∧
      w.machine.locks.HasHold q s ∧ may s q ∧ may s pid := by
  obtain ⟨gate, hb⟩ := hb
  have hst := LockTable.started w.machine.locks pid
  generalize w.machine.locks.start pid = out at hst hb
  cases hst with
  | waits hf hg | joins hf hg hc | overflows hf hg hc | unknown hf hp | takes hf hp hfree =>
    cases hb
  | blocks hf hp hfree =>
    cases hb
    have hmay := h.names pid s hp
    cases hholder : w.machine.locks.holder? s with
    | none =>
      rw [(LockTable.isFree_iff _ s).mpr ⟨hlt, hholder⟩] at hfree
      cases hfree
    | some holder =>
      cases holder with
      | outsider => exact .inl rfl
      | table q =>
        have hhold := hasHold_of_holder? h.reachable hholder
        refine .inr ⟨q, ?_, rfl, hhold, may_of_hasHold h hhold, hmay⟩
        -- the process itself has no hold, or it would not have looked at the lock
        rintro rfl
        obtain ⟨hold, hfind, _⟩ := hhold
        rw [hf] at hfind
        cases hfind

theorem considerate (h : ReachableNaming may w) : w.Considerate may := by
  constructor
  case rejoined => exact fun pid s n => LockTable.start_of_held
  case blocked => exact fun pid s => holder?_of_blocks h
  case outside =>
    intro hone pid s hb hlt
    obtain hout | ⟨q, hne, _, _, hq, hpid⟩ := holder?_of_blocks h hb hlt
    · exact hout
    · exact absurd (hone s q pid hq hpid) hne
  case again =>
    intro hone pid q s n hf hn hp
    have hsame : pid = q := hone s pid q (may_of_hasHold h ⟨_, hf, rfl⟩) (h.names q s hp)
    exact LockTable.start_of_held (hsame ▸ hf) hn

/-- An outsider has the lock of the one space there is, and its process is about to be entered. -/
theorem considerate_contended : ∃ w : World (Except Error SpaceId),
    w.ReachableNaming (fun s pid => s = 0 ∧ pid = 1) ∧ w.Blocks 1 0 ∧
      w.Considerate (fun s pid => s = 0 ∧ pid = 1) := by
  let m : Machine := ⟨(LockTable.empty.insertProcess 1 .zero).2, .emulated 0, .custom, none⟩
  have hnames : ∀ t : LockTable, t.processes = m.locks.processes →
      t.Names fun s pid => s = 0 ∧ pid = 1 := by
    intro t ht pid s hp
    rw [ht] at hp
    have hfind : (if 1 = pid then some 0 else none) = some s := hp
    split at hfind
    · rename_i hpid
      cases hfind
      exact ⟨rfl, hpid.symm⟩
    · cases hfind
  have hstart : ReachableNaming (fun s pid => s = 0 ∧ pid = 1)
      (⟨m, [], []⟩ : World (Except Error SpaceId)) := by
    refine .start (fun pid => rfl) (fun s pid => ?_) (hnames _ rfl)
    cases s with
    | zero => nofun
    | succ s => nofun
  have hlocked := hstart.move (.outside (.lock 0)) (hnames _ rfl)
  exact ⟨_, hlocked, ⟨0, rfl⟩, considerate hlocked⟩

/-- Two processes name one space. A caller, the only one there is, holds it for the one and enters
the other: the lock it waits for is held for itself, and it never takes another step. -/
theorem waits_for_itself : ∃ w w' : World (Except Error SpaceId), w.Reachable ∧ w.Blocks 2 0 ∧
    w.machine.locks.holder? 0 = some (.table 1) ∧
    w.machine.locks.holds.find? 1 = some ⟨0, 1, none⟩ ∧
    Move w w' ∧ w'.At 0 2 (.blocked 0 0) ∧ w'.callers.length = 1 ∧
    ∀ c ∈ w'.callers, (c.step w'.machine).isNone := by
  let t := ((LockTable.empty.insertProcess 1 .zero).2.bindProcess 2 0).2
  let m : Machine := ⟨t, .emulated 0, .custom, none⟩
  have hstart : Reachable (⟨m, [], []⟩ : World (Except Error SpaceId)) := by
    refine .start (fun pid => rfl) fun s pid => ?_
    cases s with
    | zero => nofun
    | succ s => nofun
  have hheld := (hstart.move (.arrive (.enter 1 fun _ => .enter 2 .done))).move
    (@Move.call _ _ [] [] _ _ _ rfl)
  refine ⟨_, _, hheld, ⟨0, rfl⟩, rfl, rfl, @Move.call _ _ [] [] _ _ _ rfl, ⟨_, rfl⟩, rfl, ?_⟩
  intro c hc
  cases List.mem_singleton.mp hc
  rfl

end World

end Paging
