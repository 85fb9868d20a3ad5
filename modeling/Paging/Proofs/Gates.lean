import Mathlib.Data.List.Nodup
import Mathlib.Logic.Relation
import Paging.Proofs.Balance

/-!
# Gates of pending holds

A caller that has to wait for the lock leaves a pending hold with a gate, and whoever comes for the
same process meanwhile waits at that gate. The gate is out of the table before it is opened, so that
what keeps the waiting callers from being forgotten is the one who made it: every gate that is still
closed and waited at has its maker inside (`Manned`), and nobody else touches the hold until the
maker publishes it. `World.gated` puts this together, for a world and all that can come after it.
-/

namespace Paging

variable {α β : Type}

theorem index_eq_of_mem_flatMap {l : List α} {f : α → List β} (h : (l.flatMap f).Nodup)
    {i j : Nat} {a b : α} (hi : l[i]? = some a) (hj : l[j]? = some b) {x : β} (hx : x ∈ f a)
    (hy : x ∈ f b) : i = j := by
  have hapart := (List.nodup_flatMap.mp h).2
  rw [List.pairwise_iff_getElem] at hapart
  obtain ⟨hilt, rfl⟩ := List.getElem?_eq_some_iff.mp hi
  obtain ⟨hjlt, rfl⟩ := List.getElem?_eq_some_iff.mp hj
  rcases Nat.lt_trichotomy i j with hij | hij | hij
  · exact absurd hy (hapart i j hilt hjlt hij hx)
  · exact hij
  · exact absurd hx (hapart j i hjlt hilt hij hy)

/-! ### Gates of the table -/

namespace LockTable

variable {t : LockTable}

theorem isOpen_iff (g : GateId) : t.isOpen g = true ↔ t.gates[g]? = some true := by
  unfold isOpen
  rw [List.getD_eq_getElem?_getD]
  cases t.gates[g]? with
  | none => simp
  | some b => simp

theorem gates_release (pid : Pid) : (t.release pid).2.gates = t.gates := by
  have hr := released t pid
  generalize t.release pid = out at hr
  cases hr <;> rfl

theorem gates_publish (pid : Pid) : (t.publish pid).gates = t.gates := by
  unfold publish
  split <;> rfl

theorem gates_moved (move : OutsideMove) : (t.moved move).gates = t.gates := by
  cases move with
  | lock space =>
    simp only [moved, outsideLock]
    split <;> rfl
  | unlock space =>
    simp only [moved, outsideUnlock]
    split <;> rfl
  | bindProcess pid space | insertProcess pid root | removeProcess pid => rfl
  | release pid => exact gates_release pid

theorem gates_enterStep {pid : Pid} {phase : Phase} {s : Step}
    (hs : t.enterStep pid phase = some s) {gate : GateId} (h : t.gates[gate]? = some true) :
    s.table.gates[gate]? = some true := by
  cases phase with
  | start =>
    cases hs
    have hst := started t pid
    generalize t.start pid = out at hst
    cases hst with
    | waits hf hg | joins hf hg hc | overflows hf hg hc | unknown hf hp | takes hf hp hfree =>
      exact h
    | blocks hf hp hfree =>
      show (t.gates ++ [false])[gate]? = some true
      rw [List.getElem?_append_left (List.getElem?_eq_some_iff.mp h).1]
      exact h
  | waiting g | blocked space g =>
    simp only [enterStep] at hs
    split at hs <;> cases hs
    exact h
  | publishing space g =>
    cases hs
    show (t.publish pid).gates[gate]? = some true
    rw [gates_publish]
    exact h
  | opening space g =>
    cases hs
    show (t.gates.set g true)[gate]? = some true
    have hlt := (List.getElem?_eq_some_iff.mp h).1
    rw [List.getElem?_set]
    split
    · rename_i hg
      subst hg
      simp [hlt]
    · exact h

end LockTable

theorem Machine.gates_perform (m : Machine) (action : Action) :
    (m.perform action).machine.locks.gates = m.locks.gates := by
  obtain ⟨pid, _, hlocks⟩ | ⟨s, root, _, hlocks⟩ | ⟨_, hlocks⟩ := m.locks_perform action
  · rw [hlocks, LockTable.gates_release]
  · rw [hlocks]
    rfl
  · rw [hlocks]

/-! ### Who opens a gate and who waits at it -/

namespace Phase

/-- The gate that a caller in this phase is going to open. -/
def opens : Phase → List GateId
  | blocked _ gate | publishing _ gate | opening _ gate => [gate]
  | start | waiting _ => []

def waitsAt : Phase → List GateId
  | waiting gate => [gate]
  | start | blocked _ _ | publishing _ _ | opening _ _ => []

end Phase

/-- What a step of entering leaves of the gates that `f` tells of a phase. -/
def Progress.gates (f : Phase → List GateId) : Progress → List GateId
  | .next phase => f phase
  | .granted _ | .refused _ => []

/-- The gates that `f` tells of the phase of a caller, with the process that it enters. -/
def Caller.gates (f : Phase → List GateId) (c : Caller α) : List (Pid × GateId) :=
  match c.rest with
  | .enter pid _ => (f c.phase).map (pid, ·)
  | .done _ | .act _ _ => []

theorem Caller.gates_fresh {f : Phase → List GateId} (hf : f .start = []) (p : Program α) :
    (fresh p).gates f = [] := by
  cases p with
  | enter pid next => simp [fresh, gates, hf]
  | done a | act action next => rfl

/-- Every gate to be opened is closed and has one who opens it, and every gate that is waited at is
open or to be opened by somebody who enters the same process. -/
structure Manned (t : LockTable) (openers waiters : List (Pid × GateId)) : Prop where
  closed : ∀ x ∈ openers, t.gates[x.2]? = some false
  distinct : (openers.map Prod.snd).Nodup
  waits : ∀ x ∈ waiters, t.gates[x.2]? = some true ∨ x ∈ openers

namespace Manned

variable {t t' : LockTable} {openers openers' waiters waiters' : List (Pid × GateId)}

theorem congr (h : Manned t openers waiters) (hgates : t'.gates = t.gates)
    (hopeners : openers.Perm openers') (hwaiters : ∀ x ∈ waiters', x ∈ waiters) :
    Manned t' openers' waiters' where
  closed x hx := by
    rw [hgates]
    exact h.closed x (hopeners.mem_iff.mpr hx)
  distinct := (hopeners.map Prod.snd).nodup_iff.mp h.distinct
  waits x hx := by
    rw [hgates]
    exact (h.waits x (hwaiters x hx)).imp_right hopeners.mem_iff.mp

theorem begin (h : Manned t openers waiters) (pid : Pid) (hgates : t'.gates = t.gates ++ [false]) :
    Manned t' ((pid, t.gates.length) :: openers) waiters := by
  -- the new gate comes after all that there were
  have hkept : ∀ {g : GateId} {b : Bool}, t.gates[g]? = some b → t'.gates[g]? = some b := by
    intro g b hg
    rw [hgates, List.getElem?_append_left (List.getElem?_eq_some_iff.mp hg).1]
    exact hg
  have hnew : t'.gates[t.gates.length]? = some false := by
    rw [hgates]
    simp
  constructor
  case closed =>
    intro x hx
    rcases List.mem_cons.mp hx with rfl | hx
    · exact hnew
    · exact hkept (h.closed x hx)
  case distinct =>
    refine List.nodup_cons.mpr ⟨fun hmem => ?_, h.distinct⟩
    obtain ⟨x, hx, heq⟩ := List.mem_map.mp hmem
    exact absurd heq (Nat.ne_of_lt (List.getElem?_eq_some_iff.mp (h.closed x hx)).1)
  case waits =>
    intro x hx
    exact (h.waits x hx).imp hkept (List.mem_cons_of_mem _)

/-- Opening a gate lets those go who wait at it and no others. -/
theorem opened {pid : Pid} {gate : GateId} (h : Manned t ((pid, gate) :: openers) waiters)
    (hgates : t'.gates = t.gates.set gate true) : Manned t' openers waiters := by
  have hclosed := h.closed _ (List.mem_cons_self ..)
  obtain ⟨hnotin, hdistinct⟩ := List.nodup_cons.mp h.distinct
  have hother : ∀ g, g ≠ gate → t'.gates[g]? = t.gates[g]? := by
    intro g hg
    rw [hgates, List.getElem?_set_ne (Ne.symm hg)]
  have hself : t'.gates[gate]? = some true := by
    have hlt := (List.getElem?_eq_some_iff.mp hclosed).1
    rw [hgates]
    simp [hlt]
  constructor
  case closed =>
    intro x hx
    have hne : x.2 ≠ gate := fun heq => hnotin (List.mem_map.mpr ⟨x, hx, heq⟩)
    rw [hother _ hne]
    exact h.closed x (List.mem_cons_of_mem _ hx)
  case distinct => exact hdistinct
  case waits =>
    intro x hx
    by_cases hg : x.2 = gate
    · rw [hg]
      exact .inl hself
    · rw [hother _ hg]
      refine (h.waits x hx).imp_right fun hmem => ?_
      rcases List.mem_cons.mp hmem with rfl | hmem
      · exact absurd rfl hg
      · exact hmem

theorem enterStep {pid : Pid} {phase : Phase} {s : Step}
    (h : Manned t (phase.opens.map (pid, ·) ++ openers) (phase.waitsAt.map (pid, ·) ++ waiters))
    (hpending : ∀ hold gate, t.holds.find? pid = some hold → hold.gate = some gate →
      (pid, gate) ∈ phase.opens.map (pid, ·) ++ openers)
    (hs : t.enterStep pid phase = some s) :
    Manned s.table ((s.progress.gates Phase.opens).map (pid, ·) ++ openers)
      ((s.progress.gates Phase.waitsAt).map (pid, ·) ++ waiters) := by
  cases phase with
  | start =>
    cases hs
    have hst := LockTable.started t pid
    generalize t.start pid = out at hst
    cases hst with
    | @waits hold gate hf hg =>
      constructor
      case closed => exact h.closed
      case distinct => exact h.distinct
      case waits =>
        intro x hx
        rcases List.mem_cons.mp hx with rfl | hx
        · -- its gate was found at a pending hold, and somebody is about to open it
          exact .inr (hpending hold gate hf hg)
        · exact h.waits x hx
    | joins hf hg hc | overflows hf hg hc | unknown hf hp | takes hf hp hfree =>
      exact h.congr rfl (.refl _) fun x hx => hx
    | blocks hf hp hfree => exact h.begin pid rfl
  | waiting gate =>
    simp only [LockTable.enterStep] at hs
    split at hs <;> cases hs
    exact h.congr rfl (.refl _) fun x hx => List.mem_cons_of_mem _ hx
  | blocked space gate =>
    simp only [LockTable.enterStep] at hs
    split at hs <;> cases hs
    exact h.congr rfl (.refl _) fun x hx => hx
  | publishing space gate =>
    cases hs
    exact h.congr (LockTable.gates_publish pid) (.refl _) fun x hx => hx
  | opening space gate =>
    cases hs
    exact h.opened rfl

end Manned

/-! ### Worlds -/

namespace World

variable {w w' : World α}

/-- Callers are told apart by the order in which they came. This one has come so far with entering
the space of the process. -/
def At (w : World α) (i : Nat) (pid : Pid) (phase : Phase) : Prop :=
  ∃ next, w.callers[i]? = some ⟨.enter pid next, phase⟩

/-- The caller has registered a pending hold of the space, with this gate, and not published it. -/
def Initiates (w : World α) (i : Nat) (pid : Pid) (space : SpaceId) (gate : GateId) : Prop :=
  w.At i pid (.blocked space gate) ∨ w.At i pid (.publishing space gate)

/-- The caller has registered a pending hold with this gate and not opened the gate. -/
def Opens (w : World α) (i : Nat) (pid : Pid) (gate : GateId) : Prop :=
  ∃ space, w.Initiates i pid space gate ∨ w.At i pid (.opening space gate)

def gates (w : World α) (f : Phase → List GateId) : List (Pid × GateId) :=
  w.callers.flatMap (Caller.gates f)

theorem gates_split (f : Phase → List GateId) (m : Machine) (before after : List (Caller α))
    (c : Caller α) (history : List Deed) :
    (gates ⟨m, before ++ c :: after, history⟩ f).Perm
      (c.gates f ++ (before ++ after).flatMap (Caller.gates f)) :=
  List.perm_middle.flatMap_right _

theorem mem_gates {f : Phase → List GateId} {pid : Pid} {gate : GateId} :
    (pid, gate) ∈ w.gates f ↔ ∃ i phase, w.At i pid phase ∧ gate ∈ f phase := by
  constructor
  · intro h
    obtain ⟨⟨rest, phase⟩, hc, hg⟩ := List.mem_flatMap.mp h
    obtain ⟨i, hi⟩ := List.mem_iff_getElem?.mp hc
    cases rest with
    | done a | act action next => cases hg
    | enter q next =>
      obtain ⟨g, hg, heq⟩ := List.mem_map.mp hg
      cases heq
      exact ⟨i, phase, ⟨next, hi⟩, hg⟩
  · rintro ⟨i, phase, ⟨next, hi⟩, hg⟩
    exact List.mem_flatMap.mpr ⟨_, List.mem_iff_getElem?.mpr ⟨i, hi⟩, List.mem_map_of_mem hg⟩

theorem mem_initiators {pid : Pid} {phase : Phase} :
    phase ∈ w.initiators pid ↔ phase.initiates = true ∧ ∃ i, w.At i pid phase := by
  constructor
  · intro h
    obtain ⟨⟨rest, at_⟩, hc, hp⟩ := List.mem_flatMap.mp h
    obtain ⟨i, hi⟩ := List.mem_iff_getElem?.mp hc
    cases rest with
    | done a | act action next => cases hp
    | enter q next =>
      simp only [Caller.pending, Phase.pending] at hp
      split at hp
      · rename_i hq
        subst hq
        split at hp
        · rename_i hinit
          cases List.mem_singleton.mp hp
          exact ⟨hinit, i, next, hi⟩
        · cases hp
      · cases hp
  · rintro ⟨hinit, i, next, hi⟩
    refine List.mem_flatMap.mpr ⟨_, List.mem_iff_getElem?.mpr ⟨i, hi⟩, ?_⟩
    simp [Caller.pending, Phase.pending, hinit]

theorem opens_iff {i : Nat} {pid : Pid} {gate : GateId} :
    w.Opens i pid gate ↔ ∃ phase, w.At i pid phase ∧ gate ∈ phase.opens := by
  constructor
  · rintro ⟨space, (h | h) | h⟩
    · exact ⟨_, h, List.mem_singleton_self gate⟩
    · exact ⟨_, h, List.mem_singleton_self gate⟩
    · exact ⟨_, h, List.mem_singleton_self gate⟩
  · rintro ⟨phase, h, hg⟩
    cases phase with
    | start | waiting g => cases hg
    | blocked space g =>
      cases List.mem_singleton.mp hg
      exact ⟨space, .inl (.inl h)⟩
    | publishing space g =>
      cases List.mem_singleton.mp hg
      exact ⟨space, .inl (.inr h)⟩
    | opening space g =>
      cases List.mem_singleton.mp hg
      exact ⟨space, .inr h⟩

/-! ### What every move keeps -/

theorem find?_of_initiates (h : Reachable w) {i : Nat} {pid : Pid} {space : SpaceId}
    {gate : GateId} (hi : w.Initiates i pid space gate) :
    w.machine.locks.holds.find? pid = some ⟨space, 0, some gate⟩ := by
  have hst := (kept h).standing pid
  have hmem : .blocked space gate ∈ w.initiators pid ∨ .publishing space gate ∈ w.initiators pid :=
    hi.imp (fun hat => mem_initiators.mpr ⟨rfl, i, hat⟩) fun hat => mem_initiators.mpr ⟨rfl, i, hat⟩
  generalize w.initiators pid = phases at hst hmem
  generalize Account.enter pid (some .idle) w.history = a at hst
  cases hst with
  | absent hf hh | held hf hh => simp at hmem
  | waiting hf hh | taken hf hh =>
    simp only [List.mem_singleton, Phase.blocked.injEq, Phase.publishing.injEq, reduceCtorEq,
      or_false, false_or] at hmem
    obtain ⟨rfl, rfl⟩ := hmem
    exact hf

/-- Somebody is about to open the gate of a pending hold. -/
theorem mem_gates_of_pending (h : Reachable w) {pid : Pid} {hold : Hold} {gate : GateId}
    (hf : w.machine.locks.holds.find? pid = some hold) (hg : hold.gate = some gate) :
    (pid, gate) ∈ w.gates Phase.opens := by
  have hst := (kept h).standing pid
  generalize hphases : w.initiators pid = phases at hst
  generalize Account.enter pid (some .idle) w.history = a at hst
  cases hst with
  | absent hf' hh | held hf' hh =>
    rw [hf] at hf'
    cases hf'
    try cases hg
  | waiting hf' hh | taken hf' hh =>
    rw [hf] at hf'
    cases hf'
    cases hg
    obtain ⟨_, i, hat⟩ := mem_initiators.mp (hphases ▸ List.mem_singleton_self _)
    exact mem_gates.mpr ⟨i, _, hat, List.mem_singleton_self gate⟩

theorem manned_call {m : Machine} {before after : List (Caller α)} {c : Caller α}
    {history : List Deed} {now : Effect (Caller α)}
    (hw : Reachable ⟨m, before ++ c :: after, history⟩)
    (h : Manned m.locks (gates ⟨m, before ++ c :: after, history⟩ Phase.opens)
      (gates ⟨m, before ++ c :: after, history⟩ Phase.waitsAt))
    (hs : c.step m = some now) :
    Manned now.machine.locks
      (gates ⟨now.machine, before ++ now.reply :: after, history ++ c.deeds m⟩ Phase.opens)
      (gates ⟨now.machine, before ++ now.reply :: after, history ++ c.deeds m⟩ Phase.waitsAt) := by
  have hsplit := h.congr rfl (gates_split Phase.opens m before after c history) fun x hx =>
    (gates_split Phase.waitsAt m before after c history).mem_iff.mpr hx
  suffices hnow : Manned now.machine.locks
      (now.reply.gates Phase.opens ++ (before ++ after).flatMap (Caller.gates Phase.opens))
      (now.reply.gates Phase.waitsAt ++ (before ++ after).flatMap (Caller.gates Phase.waitsAt)) from
    hnow.congr rfl (gates_split Phase.opens ..).symm fun x hx =>
      (gates_split Phase.waitsAt ..).mem_iff.mp hx
  obtain ⟨rest, phase⟩ := c
  cases rest with
  | done a => cases hs
  | act action next =>
    cases hs
    simp only [Caller.gates_fresh (f := Phase.opens) rfl,
      Caller.gates_fresh (f := Phase.waitsAt) rfl]
    exact hsplit.congr (m.gates_perform action) (.refl _) fun x hx => hx
  | enter pid next =>
    simp only [Caller.step, Option.map_eq_some_iff] at hs
    obtain ⟨s, hstep, rfl⟩ := hs
    have hpending : ∀ hold gate, m.locks.holds.find? pid = some hold → hold.gate = some gate →
        (pid, gate) ∈ phase.opens.map (pid, ·) ++
          (before ++ after).flatMap (Caller.gates Phase.opens) := fun hold gate hf hg =>
      (gates_split Phase.opens ..).mem_iff.mp (mem_gates_of_pending hw hf hg)
    have hentered := hsplit.enterStep hpending hstep
    cases hp : s.progress with
    | next phase' =>
      rw [hp] at hentered
      exact hentered
    | granted space | refused e =>
      rw [hp] at hentered
      simp only [Caller.gates_fresh (f := Phase.opens) rfl,
        Caller.gates_fresh (f := Phase.waitsAt) rfl]
      exact hentered

theorem manned (h : Reachable w) :
    Manned w.machine.locks (w.gates Phase.opens) (w.gates Phase.waitsAt) := by
  induction h with
  | start hf hh => exact ⟨nofun, .nil, nofun⟩
  | move hw hm ih =>
    cases hm with
    | call hs => exact manned_call hw ih hs
    | @arrive m callers history p =>
      have hsame : ∀ f : Phase → List GateId, f .start = [] →
          gates ⟨m, callers ++ [.fresh p], history⟩ f = gates ⟨m, callers, history⟩ f := by
        intro f hf
        simp [gates, Caller.gates_fresh hf]
      rw [hsame _ rfl, hsame _ rfl]
      exact ih
    | outside move => exact ih.congr (LockTable.gates_moved move) (.refl _) fun x hx => hx

/-! ### From one world to a later one -/

/-- A caller stays where it is in a move of others; else it is its own step. -/
theorem Move.callers_getElem? (hm : Move w w') {i : Nat} {c : Caller α}
    (hc : w.callers[i]? = some c) :
    w'.callers[i]? = some c ∨
      ∃ now, c.step w.machine = some now ∧ w'.machine = now.machine ∧
        w'.callers[i]? = some now.reply := by
  cases hm with
  | @call m before after c' history now hs =>
    simp only at hc ⊢
    rcases Nat.lt_trichotomy i before.length with hi | rfl | hi
    · rw [List.getElem?_append_left hi] at hc ⊢
      exact .inl hc
    · rw [List.getElem?_append_right (Nat.le_refl _), Nat.sub_self] at hc ⊢
      cases hc
      exact .inr ⟨now, hs, rfl, rfl⟩
    · rw [List.getElem?_append_right (Nat.le_of_lt hi)] at hc ⊢
      obtain ⟨k, hk⟩ : ∃ k, i - before.length = k + 1 := ⟨i - before.length - 1, by omega⟩
      rw [hk, List.getElem?_cons_succ] at hc ⊢
      exact .inl hc
  | arrive p =>
    have hlt := (List.getElem?_eq_some_iff.mp hc).1
    refine .inl ?_
    simp only at hc ⊢
    rw [List.getElem?_append_left hlt]
    exact hc
  | outside move => exact .inl hc

theorem Move.isOpen_mono (hm : Move w w') {gate : GateId}
    (h : w.machine.locks.isOpen gate = true) : w'.machine.locks.isOpen gate = true := by
  rw [LockTable.isOpen_iff] at h ⊢
  cases hm with
  | arrive p => exact h
  | outside move =>
    show ((LockTable.moved _ move).gates)[gate]? = some true
    rw [LockTable.gates_moved]
    exact h
  | @call m before after c history now hs =>
    obtain ⟨rest, phase⟩ := c
    cases rest with
    | done a => cases hs
    | act action next =>
      cases hs
      show ((m.perform action).machine.locks.gates)[gate]? = some true
      rw [Machine.gates_perform]
      exact h
    | enter pid next =>
      simp only [Caller.step, Option.map_eq_some_iff] at hs
      obtain ⟨s, hstep, rfl⟩ := hs
      exact LockTable.gates_enterStep hstep h

/-- Between the two worlds the caller turned its pending hold into one of a single reference. -/
def Published (w w' : World α) (i : Nat) (pid : Pid) (space : SpaceId) (gate : GateId) : Prop :=
  ∃ u u', Relation.ReflTransGen Move w u ∧ Move u u' ∧ Relation.ReflTransGen Move u' w' ∧
    u.At i pid (.publishing space gate) ∧ u'.At i pid (.opening space gate) ∧
    u.machine.locks.holds.find? pid = some ⟨space, 0, some gate⟩ ∧
    u'.machine.locks.holds.find? pid = some ⟨space, 1, none⟩

theorem Published.move {u : World α} {i : Nat} {pid : Pid} {space : SpaceId} {gate : GateId}
    (h : Published w u i pid space gate) (hm : Move u w') : Published w w' i pid space gate := by
  obtain ⟨v, v', hbefore, hpublish, hafter, hrest⟩ := h
  exact ⟨v, v', hbefore, hpublish, hafter.tail hm, hrest⟩

/-- What has become, in a later world, of a caller that registered a pending hold. -/
inductive Fate (w w' : World α) (i : Nat) (pid : Pid) (space : SpaceId) (gate : GateId) : Prop where
  /-- It is still waiting for the lock or about to publish, and the hold is as it was. -/
  | pending (hi : w'.Initiates i pid space gate)
      (hf : w'.machine.locks.holds.find? pid = some ⟨space, 0, some gate⟩)
  | published (hat : w'.At i pid (.opening space gate)) (hp : Published w w' i pid space gate)
  /-- It has gone on from there. -/
  | returned (ho : w'.machine.locks.isOpen gate = true) (hp : Published w w' i pid space gate)

theorem Fate.move {u : World α} {i : Nat} {pid : Pid} {space : SpaceId} {gate : GateId}
    (hu : Reachable u) (hrun : Relation.ReflTransGen Move w u) (h : Fate w u i pid space gate)
    (hm : Move u w') : Fate w w' i pid space gate := by
  have hpending : w'.Initiates i pid space gate → Fate w w' i pid space gate := fun hi =>
    .pending hi (find?_of_initiates (hu.move hm) hi)
  cases h with
  | pending hi hf =>
    rcases hi with ⟨next, hi⟩ | ⟨next, hi⟩
    · rcases hm.callers_getElem? hi with hstay | ⟨now, hs, _, hreply⟩
      · exact hpending (.inl ⟨next, hstay⟩)
      · simp only [Caller.step, LockTable.enterStep] at hs
        split at hs <;> cases hs
        exact hpending (.inr ⟨next, hreply⟩)
    · rcases hm.callers_getElem? hi with hstay | ⟨now, hs, hmachine, hreply⟩
      · exact hpending (.inr ⟨next, hstay⟩)
      · cases hs
        refine .published ⟨next, hreply⟩
          ⟨u, w', hrun, hm, .refl, ⟨next, hi⟩, ⟨next, hreply⟩, hf, ?_⟩
        show w'.machine.locks.holds.find? pid = _
        rw [hmachine]
        show (u.machine.locks.publish pid).holds.find? pid = _
        simp only [LockTable.publish, hf]
        rw [PidMap.find?_insert, if_pos rfl]
  | published hat hp =>
    obtain ⟨next, hi⟩ := hat
    rcases hm.callers_getElem? hi with hstay | ⟨now, hs, hmachine, _⟩
    · exact .published ⟨next, hstay⟩ (hp.move hm)
    · cases hs
      have hclosed := (manned hu).closed (pid, gate)
        (mem_gates.mpr ⟨i, _, ⟨next, hi⟩, List.mem_singleton_self gate⟩)
      have hlt := (List.getElem?_eq_some_iff.mp hclosed).1
      refine .returned ?_ (hp.move hm)
      rw [hmachine, LockTable.isOpen_iff]
      show (u.machine.locks.gates.set gate true)[gate]? = some true
      simp [hlt]
  | returned ho hp => exact .returned (hm.isOpen_mono ho) (hp.move hm)

/-- Callers at gates are not forgotten, and pending holds are left to their initiators. -/
structure Gated (w : World α) : Prop where
  /-- Until it is published a pending hold stays as its initiator registered it. -/
  registered : ∀ i pid space gate, w.Initiates i pid space gate →
    w.machine.locks.holds.find? pid = some ⟨space, 0, some gate⟩
  single : ∀ i j pid space space' gate gate', w.Initiates i pid space gate →
    w.Initiates j pid space' gate' → i = j
  own : ∀ i j pid pid' gate, w.Opens i pid gate → w.Opens j pid' gate → i = j
  shut : ∀ i pid gate, w.Opens i pid gate → w.machine.locks.isOpen gate = false
  attended : ∀ i pid gate, w.At i pid (.waiting gate) →
    w.machine.locks.isOpen gate = true ∨ ∃ j, w.Opens j pid gate
  fate : ∀ w', Relation.ReflTransGen Move w w' → ∀ i pid space gate,
    w.Initiates i pid space gate → Fate w w' i pid space gate

theorem opens_unique (h : Reachable w) {i j : Nat} {pid pid' : Pid} {gate : GateId}
    (hi : w.Opens i pid gate) (hj : w.Opens j pid' gate) : i = j := by
  obtain ⟨phase, ⟨next, hi⟩, hgi⟩ := opens_iff.mp hi
  obtain ⟨phase', ⟨next', hj⟩, hgj⟩ := opens_iff.mp hj
  have hdistinct := (manned h).distinct
  rw [gates, List.map_flatMap] at hdistinct
  refine index_eq_of_mem_flatMap hdistinct hi hj (x := gate) ?_ ?_
  · simpa [Caller.gates] using hgi
  · simpa [Caller.gates] using hgj

theorem gated (h : Reachable w) : w.Gated where
  registered i pid space gate hi := find?_of_initiates h hi
  single i j pid space space' gate gate' hi hj := by
    have hsame := (find?_of_initiates h hi).symm.trans (find?_of_initiates h hj)
    cases hsame
    exact opens_unique h ⟨space, .inl hi⟩ ⟨space, .inl hj⟩
  own i j pid pid' gate hi hj := opens_unique h hi hj
  shut i pid gate hi := by
    obtain ⟨phase, hat, hg⟩ := opens_iff.mp hi
    have hclosed := (manned h).closed _ (mem_gates.mpr ⟨i, phase, hat, hg⟩)
    rw [← Bool.not_eq_true, LockTable.isOpen_iff, hclosed]
    nofun
  attended i pid gate hi := by
    refine ((manned h).waits _ (mem_gates.mpr ⟨i, _, hi, List.mem_singleton_self gate⟩)).imp
      (LockTable.isOpen_iff gate).mpr fun hmem => ?_
    obtain ⟨j, phase, hat, hg⟩ := mem_gates.mp hmem
    exact ⟨j, opens_iff.mpr ⟨phase, hat, hg⟩⟩
  fate w' hrun i pid space gate hi := by
    have hall : w'.Reachable ∧ Fate w w' i pid space gate := by
      induction hrun with
      | refl => exact ⟨h, .pending hi (find?_of_initiates h hi)⟩
      | tail hrun hm ih => exact ⟨ih.1.move hm, ih.2.move ih.1 hrun hm⟩
    exact hall.2

/-- An outsider has the lock of a space, one caller is blocked behind its pending hold and a second
waits at the gate, while the process is released in vain. -/
theorem gated_contended : ∃ w : World (Except Error SpaceId),
    w.Reachable ∧ w.Initiates 0 1 0 0 ∧ w.At 1 1 (.waiting 0) ∧ w.Gated := by
  let t := (LockTable.empty.insertProcess 1 .zero).2
  let m : Machine := ⟨t, .emulated 0, .custom, none⟩
  have hstart : Reachable (⟨m, [], []⟩ : World (Except Error SpaceId)) := by
    refine .start (fun pid => rfl) fun s pid => ?_
    cases s with
    | zero => nofun
    | succ s => nofun
  have hblocked := ((hstart.move (.outside (.lock 0))).move (.arrive (.enter 1 .done))).move
    (@Move.call _ _ [] [] _ _ _ rfl)
  have hwaiting := (hblocked.move (.arrive (.enter 1 .done))).move
    (@Move.call _ _ [_] [] _ _ _ rfl)
  have hreleased := hwaiting.move (.outside (.release 1))
  exact ⟨_, hreleased, .inl ⟨_, rfl⟩, ⟨_, rfl⟩, gated hreleased⟩

end World

end Paging
