import Paging.Proofs.Locks
import Paging.Machine

/-!
# Entering alone

What a caller has in hand once it was let into a space while only bystanders moved. Bystanders who
keep to the moves that the table allows (`Bystander.Honest`) change neither a root nor a pending
hold, so the caller ends with a published reference to the space it was granted
(`published_of_grants`), and as long as that reference stands another entry for the same process
gets the same space at once (`enterAlone_held`).
-/

namespace Paging

/-- Bystanders who do nothing that the table does not allow. -/
def Bystander.Honest (others : Bystander) : Prop :=
  ∀ pid s t, ∃ moves : List OutsideMove, (others pid s t).2 = moves.foldl LockTable.moved t

theorem Bystander.honest_yielding : Bystander.yielding.Honest := fun _ s _ => ⟨[.unlock s], rfl⟩

theorem Bystander.honest_observing (stray : SpaceId → Bool) :
    (Bystander.observing stray).Honest := by
  intro pid s t
  by_cases hs : stray s = true
  · refine ⟨[.release pid, .unlock s], ?_⟩
    simp [Bystander.observing, hs, LockTable.moved]
  · refine ⟨[.unlock s], ?_⟩
    simp [Bystander.observing, hs, LockTable.moved]

namespace LockTable

variable {others : Bystander} {t held : LockTable} {pid : Pid} {space : SpaceId}

/-- A caller for `pid` is let into `space`, which leaves the table `held`. -/
def Grants (others : Bystander) (t : LockTable) (pid : Pid) (space : SpaceId)
    (held : LockTable) : Prop :=
  ∃ events, t.enterAlone others pid = some ⟨events, held, .ok space⟩

/-! ### Many moves of others -/

theorem root_foldl_moved (moves : List OutsideMove) {t : LockTable} {r : SpaceId}
    (hr : r < t.spaces.length) : (moves.foldl moved t).root r = t.root r := by
  induction moves generalizing t with
  | nil => rfl
  | cons move rest ih =>
    have hle := length_spaces_moved (t := t) move
    rw [List.foldl_cons, ih (Nat.lt_of_lt_of_le hr hle), root_moved move hr]

theorem find?_foldl_moved_of_gate (moves : List OutsideMove) {t : LockTable} {hold : Hold}
    (hf : t.holds.find? pid = some hold) (hg : hold.gate.isSome = true) :
    (moves.foldl moved t).holds.find? pid = some hold := by
  induction moves generalizing t with
  | nil => exact hf
  | cons move rest ih => exact ih (find?_moved_of_gate move hf hg)

/-! ### The way in behind a taken lock -/

/-- What a caller does once it is blocked: others move, and if that frees the lock the caller takes
it, publishes its hold and opens the gate. -/
theorem enterAlone_blocked {s : SpaceId} {gate : GateId} {first : Step} (h : t.start pid = first)
    (hb : first.progress = .next (.blocked s gate)) :
    t.enterAlone others pid =
      if (others pid s first.table).2.isFree s then
        some ⟨first.events ++ (others pid s first.table).1,
          let taken := (others pid s first.table).2.setHolder s (some (.table pid))
          let published := taken.publish pid
          { published with gates := published.gates.set gate true }, .ok s⟩
      else none := by
  unfold enterAlone
  rw [h]
  simp only [hb, enterStep]
  split <;> simp

theorem enterAlone_cases {now : Entered} (h : t.enterAlone others pid = some now) :
    (∃ s, (t.start pid).progress = .granted s ∧
      now = ⟨(t.start pid).events, (t.start pid).table, .ok s⟩) ∨
    (∃ e, (t.start pid).progress = .refused e ∧
      now = ⟨(t.start pid).events, (t.start pid).table, .error e⟩) ∨
    (∃ s gate, (t.start pid).progress = .next (.blocked s gate) ∧
      (others pid s (t.start pid).table).2.isFree s = true ∧
      now = ⟨(t.start pid).events ++ (others pid s (t.start pid).table).1,
        let taken := (others pid s (t.start pid).table).2.setHolder s (some (.table pid))
        let published := taken.publish pid
        { published with gates := published.gates.set gate true }, .ok s⟩) := by
  cases hp : (t.start pid).progress with
  | granted s =>
    simp only [enterAlone, hp] at h
    exact .inl ⟨s, rfl, (Option.some.inj h).symm⟩
  | refused e =>
    simp only [enterAlone, hp] at h
    exact .inr (.inl ⟨e, rfl, (Option.some.inj h).symm⟩)
  | next phase =>
    cases phase with
    | blocked s gate =>
      rw [enterAlone_blocked rfl hp] at h
      split at h
      · rename_i hs
        exact .inr (.inr ⟨s, gate, rfl, hs, (Option.some.inj h).symm⟩)
      · cases h
    | start | waiting gate | publishing s gate | opening s gate =>
      simp only [enterAlone, hp] at h
      cases h

theorem find?_of_blocked {s : SpaceId} {gate : GateId}
    (hp : (t.start pid).progress = .next (.blocked s gate)) :
    (t.start pid).table.holds.find? pid = some ⟨s, 0, some gate⟩ := by
  have hst := started t pid
  generalize t.start pid = out at hst hp
  cases hst with
  | blocks hf hpr hfree =>
    cases hp
    simp [PidMap.find?_insert]
  | waits hf hg | joins hf hg hc | overflows hf hg hc | unknown hf hpr | takes hf hpr hs => cases hp

theorem length_spaces_start (t : LockTable) (pid : Pid) :
    (t.start pid).table.spaces.length = t.spaces.length := by
  have hst := started t pid
  generalize t.start pid = out at hst
  cases hst with
  | takes hf hpr hfree => simp [setHolder]
  | waits hf hg | joins hf hg hc | overflows hf hg hc | unknown hf hpr | blocks hf hpr hfree => rfl

theorem find?_publish {hold : Hold} (hf : t.holds.find? pid = some hold) :
    (t.publish pid).holds.find? pid = some { hold with count := 1, gate := none } := by
  simp [publish, hf, PidMap.find?_insert]

/-! ### What a grant leaves -/

/-- Whoever is let in has a published reference to the space. -/
theorem published_of_grants (ho : others.Honest) (h : t.Grants others pid space held) :
    ∃ k, held.holds.find? pid = some ⟨space, k + 1, none⟩ := by
  obtain ⟨events, h⟩ := h
  obtain ⟨s, hp, hnow⟩ | ⟨e, hp, hnow⟩ | ⟨s, gate, hp, hs, hnow⟩ := enterAlone_cases h
  · have hst := started t pid
    injection hnow with _ ht hr
    cases hr
    subst ht
    generalize t.start pid = out at hst hp
    cases hst with
    | @joins hold hf hg hc =>
      cases hp
      exact ⟨hold.count, by simp [PidMap.find?_insert, hg]⟩
    | takes hf hpr hs =>
      cases hp
      exact ⟨0, by simp [PidMap.find?_insert]⟩
    | waits hf hg | overflows hf hg hc | unknown hf hpr | blocks hf hpr hs => cases hp
  · cases hnow
  · -- the pending hold outlives what the others do, so that publishing finds it
    obtain ⟨moves, hmoves⟩ := ho pid s (t.start pid).table
    have hpend : (others pid s (t.start pid).table).2.holds.find? pid =
        some ⟨s, 0, some gate⟩ := by
      rw [hmoves]
      exact find?_foldl_moved_of_gate moves (find?_of_blocked hp) rfl
    injection hnow with _ ht hr
    cases hr
    refine ⟨0, ?_⟩
    rw [ht]
    exact find?_publish (t := (others pid space _).2.setHolder space _) hpend

/-- No way in changes the root of a space that is there. -/
theorem root_of_grants (ho : others.Honest) (h : t.Grants others pid space held) {r : SpaceId}
    (hr : r < t.spaces.length) : held.root r = t.root r := by
  obtain ⟨events, h⟩ := h
  obtain ⟨s, hp, hnow⟩ | ⟨e, hp, hnow⟩ | ⟨s, gate, hp, hs, hnow⟩ := enterAlone_cases h
  · injection hnow with _ ht _
    rw [ht, root_start]
  · cases hnow
  · obtain ⟨moves, hmoves⟩ := ho pid s (t.start pid).table
    have hlen : r < (t.start pid).table.spaces.length := by
      rw [length_spaces_start]
      exact hr
    injection hnow with _ ht _
    have hpub : held.root r = (((others pid s (t.start pid).table).2.setHolder s
        (some (.table pid))).publish pid).root r := by rw [ht]; rfl
    rw [hpub, root_publish, root_setHolder, hmoves, root_foldl_moved moves hlen, root_start]

/-! ### When a caller is let in -/

theorem enterAlone_held (others : Bystander) {hold : Hold} (hf : t.holds.find? pid = some hold)
    (hg : hold.gate = none) (hc : hold.count + 1 < countLimit) :
    t.enterAlone others pid = some ⟨[],
      { t with holds := t.holds.insert pid { hold with count := hold.count + 1 } },
      .ok hold.space⟩ := by
  simp [enterAlone, start, hf, hg, hc]

theorem enterAlone_overflow (others : Bystander) {hold : Hold}
    (hf : t.holds.find? pid = some hold) (hg : hold.gate = none)
    (hc : ¬ hold.count + 1 < countLimit) :
    t.enterAlone others pid =
      some ⟨[.notice (.countOverflow pid)], t, .error (.lockOverflow pid)⟩ := by
  simp [enterAlone, start, hf, hg, hc]

/-- The ways for a caller to be let in, each with the space that it gets. -/
inductive Enterable (others : Bystander) (t : LockTable) (pid : Pid) : SpaceId → Prop where
  /-- The process is held and one more reference can be counted. -/
  | held {hold : Hold} (hf : t.holds.find? pid = some hold) (hg : hold.gate = none)
      (hc : hold.count + 1 < countLimit) : Enterable others t pid hold.space
  /-- Nobody has the lock of the space that the process table names. -/
  | free {s : SpaceId} (hf : t.holds.find? pid = none) (hp : t.processes.find? pid = some s)
      (hs : t.isFree s = true) : Enterable others t pid s
  /-- Somebody has it and gives it back while the caller is blocked. -/
  | freed {s : SpaceId} (hf : t.holds.find? pid = none) (hp : t.processes.find? pid = some s)
      (hs : t.isFree s = false) (hlt : s < t.spaces.length)
      (hback : (others pid s (t.start pid).table).2.isFree s = true) : Enterable others t pid s

theorem grants_of_enterable (h : t.Enterable others pid space) :
    ∃ held, t.Grants others pid space held := by
  cases h with
  | held hf hg hc => exact ⟨_, [], enterAlone_held others hf hg hc⟩
  | free hf hp hs =>
    refine ⟨{ t.setHolder space (some (.table pid)) with
      holds := t.holds.insert pid ⟨space, 1, none⟩ }, [.tryLock space true], ?_⟩
    simp [enterAlone, start, hf, hp, hs]
  | freed hf hp hs hlt hback =>
    have hb : (t.start pid).progress = .next (.blocked space t.gates.length) := by
      simp [start, hf, hp, hs]
    have h : t.enterAlone others pid = _ := enterAlone_blocked rfl hb
    rw [if_pos hback] at h
    exact ⟨_, _, h⟩

theorem root_of_enterable (ho : others.Honest) (h : t.Enterable others pid space)
    (hgr : t.Grants others pid space held) : held.root space = t.root space := by
  cases h with
  | held hf hg hc =>
    obtain ⟨events, hen⟩ := hgr
    rw [enterAlone_held others hf hg hc] at hen
    cases hen
    rfl
  | free hf hp hs => exact root_of_grants ho hgr ((isFree_iff t space).mp hs).1
  | freed hf hp hs hlt hback => exact root_of_grants ho hgr hlt

end LockTable

end Paging
