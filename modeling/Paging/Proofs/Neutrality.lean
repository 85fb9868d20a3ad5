import Mathlib.Logic.Relation
import Paging.Proofs.Balance
import Paging.Proofs.Calm

/-!
# Calls on a space

The calls that work on the space of one process hold it for as long as they run and no longer. A
call that finds the process held makes no call on any lock. Otherwise it takes the lock of the space
before everything else that it does and gives it back after everything else, and then all holds and
locks are as they were, save for what others did while the call had to wait for the lock
(`Op.Neutral`). This is so however the call ends, because whatever it does inside is calm. A call
that comes to a pending hold stands at its gate and does nothing there, and when the gate is open it
looks at the table again (`World.Looks`), where the same is true of it.
-/

namespace Paging

/-- The calls that hold the space of one process while they run. -/
inductive SpaceCall where
  | resolve (vaddr : VirtualAddress)
  | lastBit (vaddr : VirtualAddress) (b : UInt32)
  | lastPfn (vaddr : VirtualAddress)
  | pagingRoot
  | edit (d : SpaceEdit)

inductive SpaceAnswer where
  | entries (set : EntrySet)
  | bit (b : Option Bool)
  | pfn (pfn : Option Word)
  | root (root : PhysicalAddress)
  | edited (report : Option EditReport)
deriving DecidableEq

def SpaceCall.perform (c : SpaceCall) (e : Engine) (pid : Pid) : Op SpaceAnswer :=
  match c with
  | resolve vaddr => .entries <$> e.resolve vaddr pid
  | lastBit vaddr b => .bit <$> e.lastBit? vaddr pid b
  | lastPfn vaddr => .pfn <$> e.lastPfn? vaddr pid
  | pagingRoot => .root <$> Engine.pagingRoot pid
  | edit d => .edited <$> d.perform e pid

theorem SpaceCall.holds_perform {pid : Pid} (L : OpLogic pid) (c : SpaceCall) (e : Engine) :
    L.Holds 0 (fun _ => True) (c.perform e pid) := by
  cases c with
  | resolve vaddr => exact L.map _ (L.resolve e vaddr (by decide))
  | lastBit vaddr b => exact L.map _ (L.answer _ (L.resolve e vaddr (by decide)))
  | lastPfn vaddr => exact L.map _ (L.answer _ (L.resolve e vaddr (by decide)))
  | pagingRoot => exact L.map _ (L.pagingRoot (by decide))
  | edit d => exact L.map _ (d.holds_perform L e)

variable {α β : Type}

/-- What becomes of an answer may as well be done inside. -/
theorem Op.holding_bind_pure (pid : Pid) (body : SpaceId → Op α) (f : α → β) :
    (Op.holding pid body >>= fun a => pure (f a)) =
      Op.holding pid fun s => body s >>= fun a => pure (f a) := by
  show Program.bind (.enter pid _) _ = Program.enter pid _
  simp only [Program.bind]
  congr 1
  funext r
  cases r with
  | error err => rfl
  | ok s =>
    show Program.bind (Program.bind (body s).run _) _ =
      Program.bind (Program.bind (body s).run _) _
    rw [Program.bind_assoc, Program.bind_assoc]
    congr 1
    funext result
    cases result <;> rfl

/-- The operation is one hold of the space of the process and calm inside. -/
def Op.Enclosed (pid : Pid) (op : Op α) : Prop :=
  ∃ (P : α → Prop) (body : SpaceId → Op α), op = Op.holding pid body ∧ ∀ s, (body s).Calm pid P

namespace Op.Enclosed

variable {pid : Pid} {op : Op α}

theorem answer (h : op.Enclosed pid) (f : α → β) :
    Enclosed pid (op >>= fun a => Pure.pure (f a)) := by
  obtain ⟨P, body, rfl, hbody⟩ := h
  exact ⟨fun _ => True, _, holding_bind_pure pid body f, fun s =>
    (hbody s).bind fun _ _ => .pure trivial⟩

theorem map (h : op.Enclosed pid) (f : α → β) : Enclosed pid (f <$> op) := by
  rw [map_eq_pure_bind]
  exact h.answer f

end Op.Enclosed

theorem EntryEdit.enclosed_perform (d : EntryEdit) (e : Engine) (vaddr : VirtualAddress)
    (pid : Pid) : (d.perform e vaddr pid).Enclosed pid := by
  rw [perform_eq]
  exact Op.Enclosed.answer
    ⟨_, _, rfl, fun _ => (OpLogic.calm pid).editInside e vaddr d.mask d.patchFor⟩ _

theorem SpaceCall.enclosed_perform (c : SpaceCall) (e : Engine) (pid : Pid) :
    (c.perform e pid).Enclosed pid := by
  let L := OpLogic.calm pid
  have hresolve : ∀ vaddr, (e.resolve vaddr pid).Enclosed pid := fun vaddr =>
    Op.Enclosed.answer ⟨_, _, rfl, fun _ => L.walkFrom (k := 1) e vaddr trivial⟩ _
  cases c with
  | resolve vaddr => exact (hresolve vaddr).map _
  | lastBit vaddr b => exact ((hresolve vaddr).answer _).map _
  | lastPfn vaddr => exact ((hresolve vaddr).answer _).map _
  | pagingRoot =>
    exact Op.Enclosed.map ⟨_, _, rfl, fun _ => L.readRoot (k := 1) trivial⟩ _
  | edit d =>
    refine Op.Enclosed.map ?_ _
    cases d with
    | entries edit vaddr => exact (edit.enclosed_perform e vaddr pid).map _
    | setRoot root =>
      exact Op.Enclosed.map ⟨_, _, rfl, fun _ =>
        L.bind (k := 1) (L.note _) fun _ _ => L.setRoot root trivial⟩ _
    | barrier =>
      exact Op.Enclosed.map ⟨_, _, rfl, fun _ =>
        L.bind (k := 1) (L.readRoot trivial) fun root _ => L.setRoot root trivial⟩ _

/-! ### First references -/

namespace LockTable

/-- The second table is the first with the space entered by a first reference to the process. -/
structure FirstHold (t : LockTable) (pid : Pid) (s : SpaceId) (held : LockTable) : Prop where
  unheld : t.holds.find? pid = none
  unlocked : t.holder? s = none
  processes : held.processes = t.processes
  spaces : held.spaces.length = t.spaces.length
  hold : held.holds.find? pid = some ⟨s, 1, none⟩
  holds : ∀ q, pid ≠ q → held.holds.find? q = t.holds.find? q
  locked : held.holder? s = some (.table pid)
  holder : ∀ r, s ≠ r → held.holder? r = t.holder? r

variable {t held : LockTable} {pid : Pid} {s : SpaceId}

theorem firstHold_taken (hf : t.holds.find? pid = none) (hs : t.isFree s = true) :
    t.FirstHold pid s
      { t.setHolder s (some (.table pid)) with holds := t.holds.insert pid ⟨s, 1, none⟩ } := by
  obtain ⟨hlt, hnone⟩ := (isFree_iff t s).mp hs
  have hholder := holder?_setHolder t (some (.table pid)) hlt
  constructor
  case unheld => exact hf
  case unlocked => exact hnone
  case processes => rfl
  case spaces => exact List.length_modify ..
  case hold => rw [PidMap.find?_insert, if_pos rfl]
  case holds => exact fun q hq => by rw [PidMap.find?_insert, if_neg hq]
  case locked => exact (hholder s).trans (if_pos rfl)
  case holder => exact fun r hr => (hholder r).trans (if_neg hr)

/-- Giving back the first reference undoes it. -/
theorem FirstHold.release {held' : LockTable} (h : t.FirstHold pid s held)
    (hsame : held.SameLocks held') :
    (held'.release pid).1 = [.unlock s, .notice (.unlocked pid)] ∧
      t.SameLocks (held'.release pid).2 := by
  have hlocked : held'.holder? s = some (.table pid) := (hsame.holder s).trans h.locked
  have hrelease : held'.release pid = ([.unlock s, .notice (.unlocked pid)],
      { held'.setHolder s none with holds := held'.holds.erase pid }) := by
    simp [LockTable.release, (hsame.holds pid).trans h.hold]
  rw [hrelease]
  refine ⟨rfl, hsame.processes.trans h.processes, ?_, fun q => ?_, fun r => ?_⟩
  · exact (List.length_modify ..).trans (hsame.spaces.trans h.spaces)
  · show (held'.holds.erase pid).find? q = t.holds.find? q
    rw [PidMap.find?_erase]
    split
    · rename_i hq
      rw [← hq, h.unheld]
    · rename_i hq
      rw [hsame.holds, h.holds q hq]
  · show (held'.setHolder s none).holder? r = t.holder? r
    rw [holder?_setHolder _ none (lt_of_holder? _ hlocked)]
    split
    · rename_i hr
      rw [← hr, h.unlocked]
    · rename_i hr
      rw [hsame.holder, h.holder r hr]

/-- The second table is the first with a pending hold besides. -/
structure Beside (t : LockTable) (pid : Pid) (hold : Hold) (t' : LockTable) : Prop where
  processes : t'.processes = t.processes
  spaces : t'.spaces = t.spaces
  unheld : t.holds.find? pid = none
  pending : t'.holds.find? pid = some hold
  holds : ∀ q, pid ≠ q → t'.holds.find? q = t.holds.find? q

namespace Beside

variable {t' : LockTable} {hold : Hold}

theorem setHolder (h : t.Beside pid hold t') (s : SpaceId) (holder : Option Holder) :
    (t.setHolder s holder).Beside pid hold (t'.setHolder s holder) where
  processes := h.processes
  spaces := by simp only [LockTable.setHolder, h.spaces]
  unheld := h.unheld
  pending := h.pending
  holds := h.holds

theorem erase (h : t.Beside pid hold t') {q : Pid} (hq : q ≠ pid) :
    Beside { t with holds := t.holds.erase q } pid hold { t' with holds := t'.holds.erase q } where
  processes := h.processes
  spaces := h.spaces
  unheld := by rw [PidMap.find?_erase, if_neg hq, h.unheld]
  pending := by rw [PidMap.find?_erase, if_neg hq, h.pending]
  holds p hp := by simp only [PidMap.find?_erase, h.holds p hp]

theorem insert (h : t.Beside pid hold t') {q : Pid} (hq : q ≠ pid) (new : Hold) :
    Beside { t with holds := t.holds.insert q new } pid hold
      { t' with holds := t'.holds.insert q new } where
  processes := h.processes
  spaces := h.spaces
  unheld := by rw [PidMap.find?_insert, if_neg hq, h.unheld]
  pending := by rw [PidMap.find?_insert, if_neg hq, h.pending]
  holds p hp := by simp only [PidMap.find?_insert, h.holds p hp]

theorem release (h : t.Beside pid hold t') (hg : hold.gate.isSome = true) (q : Pid) :
    (t.release q).2.Beside pid hold (t'.release q).2 := by
  by_cases hq : q = pid
  · subst hq
    have hnot : (t.release q).2 = t := by simp [LockTable.release, h.unheld]
    rw [hnot, release_of_gate h.pending hg]
    exact h
  · unfold LockTable.release
    rw [h.holds q (Ne.symm hq)]
    cases t.holds.find? q with
    | none => exact h
    | some first =>
      dsimp only
      split
      · exact h
      · split
        · exact (h.setHolder first.space none).erase hq
        · exact h.insert hq _

theorem moved (h : t.Beside pid hold t') (hg : hold.gate.isSome = true) (move : OutsideMove) :
    (t.moved move).Beside pid hold (t'.moved move) := by
  have hfree : ∀ r, t'.isFree r = t.isFree r := fun r => by simp only [isFree, h.spaces]
  have hholder : ∀ r, t'.holder? r = t.holder? r := fun r => by simp only [holder?, h.spaces]
  cases move with
  | lock r =>
    simp only [LockTable.moved, outsideLock, hfree]
    split
    · exact h.setHolder r (some .outsider)
    · exact h
  | unlock r =>
    simp only [LockTable.moved, outsideUnlock, hholder]
    split
    · exact h.setHolder r none
    · exact h
  | bindProcess q r =>
    exact ⟨congrArg (·.insert q r) h.processes, h.spaces, h.unheld, h.pending, h.holds⟩
  | insertProcess q root =>
    refine ⟨?_, ?_, h.unheld, h.pending, h.holds⟩
    · simp only [LockTable.moved, insertProcess, bindProcess, h.processes, h.spaces]
    · simp only [LockTable.moved, insertProcess, bindProcess, h.spaces]
  | removeProcess q =>
    exact ⟨congrArg (·.erase q) h.processes, h.spaces, h.unheld, h.pending, h.holds⟩
  | release q => exact h.release hg q

theorem foldl_moved (moves : List OutsideMove) (h : t.Beside pid hold t')
    (hg : hold.gate.isSome = true) :
    (moves.foldl LockTable.moved t).Beside pid hold (moves.foldl LockTable.moved t') := by
  induction moves generalizing t t' with
  | nil => exact h
  | cons move rest ih => exact ih (h.moved hg move)

theorem start (hf : t.holds.find? pid = none) (hp : t.processes.find? pid = some s)
    (hs : t.isFree s = false) :
    t.Beside pid ⟨s, 0, some t.gates.length⟩ (t.start pid).table := by
  have hstart : (t.start pid).table = { t with
      holds := t.holds.insert pid ⟨s, 0, some t.gates.length⟩
      gates := t.gates ++ [false] } := by
    simp [LockTable.start, hf, hp, hs]
  rw [hstart]
  constructor
  case processes => rfl
  case spaces => rfl
  case unheld => exact hf
  case pending => rw [PidMap.find?_insert, if_pos rfl]
  case holds => exact fun q hq => by rw [PidMap.find?_insert, if_neg hq]

/-- Whoever is behind a pending hold and gets the lock has a first reference. -/
theorem firstHold {gate : GateId} (h : t.Beside pid ⟨s, 0, some gate⟩ t')
    (hs : t'.isFree s = true) :
    t.FirstHold pid s
      { (t'.setHolder s (some (.table pid))).publish pid with
        gates := ((t'.setHolder s (some (.table pid))).publish pid).gates.set gate true } := by
  have hfree : t.isFree s = true := by
    unfold isFree at hs ⊢
    rwa [h.spaces] at hs
  have htaken := firstHold_taken h.unheld hfree
  have hpublished : (t'.setHolder s (some (.table pid))).publish pid =
      { t'.setHolder s (some (.table pid)) with holds := t'.holds.insert pid ⟨s, 1, none⟩ } := by
    have hpending : (t'.setHolder s (some (.table pid))).holds.find? pid = _ := h.pending
    simp only [publish, hpending]
    rfl
  have hholder : ∀ r, (t'.setHolder s (some (.table pid))).holder? r =
      (t.setHolder s (some (.table pid))).holder? r := fun r => by
    simp only [holder?, LockTable.setHolder, h.spaces]
  rw [hpublished]
  constructor
  case unheld => exact h.unheld
  case unlocked => exact htaken.unlocked
  case processes => exact h.processes
  case spaces => exact (List.length_modify ..).trans (congrArg List.length h.spaces)
  case hold => exact PidMap.find?_insert .. |>.trans (if_pos rfl)
  case holds => exact fun q hq => (PidMap.find?_insert ..).trans ((if_neg hq).trans (h.holds q hq))
  case locked => exact (hholder s).trans htaken.locked
  case holder => exact fun r hr => (hholder r).trans (htaken.holder r hr)

end Beside

end LockTable

/-! ### Runs -/

/-- What an operation on the space of a process does to holds and locks, by how it finds them. -/
structure Op.Neutral (others : Bystander) (pid : Pid) (m : Machine) (op : Op α) : Prop where
  held : ∀ hold, m.locks.holds.find? pid = some hold → hold.gate = none →
    ∃ eff, op.runOn others m = some eff ∧ m.locks.SameLocks eff.machine.locks ∧
      Event.lockCalls eff.events = []
  /-- Another caller waits for the lock. The call stands at the gate, for ever unless others move,
  and does nothing before it begins again. -/
  pending : ∀ hold gate, m.locks.holds.find? pid = some hold → hold.gate = some gate →
    op.runOn others m = none ∧
      (Caller.fresh op.run).step m = some ⟨[], m, ⟨op.run, .waiting gate⟩⟩ ∧
      ∀ m', (⟨op.run, .waiting gate⟩ : Caller (Except Error α)).step m' =
        if m'.locks.isOpen gate then some ⟨[], m', .fresh op.run⟩ else none
  unknown : m.locks.holds.find? pid = none → m.locks.processes.find? pid = none →
    op.runOn others m = some ⟨[.notice (.unknownProcess pid)], m, .error (.processNotFound pid)⟩
  free : ∀ s, m.locks.holds.find? pid = none → m.locks.processes.find? pid = some s →
    m.locks.isFree s = true →
    ∃ eff inside, op.runOn others m = some eff ∧ m.locks.SameLocks eff.machine.locks ∧
      eff.events = .tryLock s true :: inside ++ [.unlock s, .notice (.unlocked pid)] ∧
      Event.lockCalls inside = []
  /-- The others move while the call is blocked. It comes to an end if they leave the space free,
  and leaves the table as the others alone would have made it. -/
  taken : ∀ (s : SpaceId) (moves : List OutsideMove), m.locks.holds.find? pid = none →
    m.locks.processes.find? pid = some s → m.locks.isFree s = false →
    (others pid s (m.locks.start pid).table).2 =
      moves.foldl LockTable.moved (m.locks.start pid).table →
    if (moves.foldl LockTable.moved m.locks).isFree s then
      ∃ eff inside, op.runOn others m = some eff ∧
        (moves.foldl LockTable.moved m.locks).SameLocks eff.machine.locks ∧
        eff.events = [.tryLock s false, .notice (.waiting pid), .lock s] ++
          (others pid s (m.locks.start pid).table).1 ++ inside ++
          [.unlock s, .notice (.unlocked pid)] ∧
        Event.lockCalls inside = []
    else op.runOn others m = none

namespace Op

variable {others : Bystander} {m : Machine} {pid : Pid} {P : α → Prop} {body : SpaceId → Op α}

/-- A run that enters with a first reference ends without it. -/
theorem runOn_holding_first {events : List Event} {s : SpaceId} {t held : LockTable}
    (hbody : ∀ s, (body s).Calm pid P)
    (hen : m.locks.enterAlone others pid = some ⟨events, held, .ok s⟩)
    (hfirst : t.FirstHold pid s held) :
    ∃ eff inside, (holding pid body).runOn others m = some eff ∧
      t.SameLocks eff.machine.locks ∧
      eff.events = events ++ inside ++ [.unlock s, .notice (.unlocked pid)] ∧
      Event.lockCalls inside = [] := by
  obtain ⟨eff, hrun, hsame, hcalls, _⟩ :=
    hbody s others { m with locks := held } _ hfirst.hold rfl Nat.one_pos
  obtain ⟨hevents, hlocks⟩ := hfirst.release hsame
  have hwhole : (holding pid body).runOn others m = _ := runOn_holding_granted others body hen rfl
  rw [hrun] at hwhole
  refine ⟨_, eff.events, hwhole, hlocks, ?_, hcalls⟩
  simp only [Effect.after, Effect.released, hevents, List.append_assoc]

theorem neutral_holding (hbody : ∀ s, (body s).Calm pid P)
    (hcount : ∀ hold, m.locks.holds.find? pid = some hold → hold.gate = none → 0 < hold.count) :
    (holding pid body).Neutral others pid m where
  held hold hf hg := by
    obtain ⟨eff, hrun, hsame, hcalls, _⟩ :=
      Calm.holding hbody others m hold hf hg (hcount hold hf hg)
    exact ⟨eff, hrun, hsame, hcalls⟩
  pending hold gate hf hg := by
    have hstart : m.locks.start pid = ⟨.next (.waiting gate), [], m.locks⟩ := by
      simp [LockTable.start, hf, hg]
    have hrun : (holding pid body).run = .enter pid _ := rfl
    refine ⟨runOn_holding_none others body ?_, ?_, fun m' => ?_⟩
    · simp [LockTable.enterAlone, hstart]
    · simp [Caller.fresh, Caller.step, hrun, LockTable.enterStep, hstart]
    · simp only [Caller.step, hrun, LockTable.enterStep]
      split <;> rfl
  unknown hf hp := by
    have hen : m.locks.enterAlone others pid =
        some ⟨[.notice (.unknownProcess pid)], m.locks, .error (.processNotFound pid)⟩ := by
      simp [LockTable.enterAlone, LockTable.start, hf, hp]
    exact runOn_holding_refused others body hen rfl
  free s hf hp hs := by
    have hen : m.locks.enterAlone others pid = some ⟨[.tryLock s true],
        { m.locks.setHolder s (some (.table pid)) with
          holds := m.locks.holds.insert pid ⟨s, 1, none⟩ }, .ok s⟩ := by
      simp [LockTable.enterAlone, LockTable.start, hf, hp, hs]
    exact runOn_holding_first hbody hen (LockTable.firstHold_taken hf hs)
  taken s moves hf hp hs hmoves := by
    have hstart : m.locks.start pid = ⟨.next (.blocked s m.locks.gates.length),
        [.tryLock s false, .notice (.waiting pid), .lock s], (m.locks.start pid).table⟩ := by
      simp [LockTable.start, hf, hp, hs]
    have hleft := (LockTable.Beside.start hf hp hs).foldl_moved moves rfl
    have hfree : (moves.foldl LockTable.moved (m.locks.start pid).table).isFree s =
        (moves.foldl LockTable.moved m.locks).isFree s := by
      simp only [LockTable.isFree, hleft.spaces]
    have hen : m.locks.enterAlone others pid = _ :=
      LockTable.enterAlone_blocked rfl (congrArg Step.progress hstart)
    rw [hmoves, hfree, congrArg Step.events hstart] at hen
    split
    · rename_i hback
      rw [if_pos hback] at hen
      exact runOn_holding_first hbody hen (hleft.firstHold (hfree.trans hback))
    · rename_i hback
      rw [if_neg hback] at hen
      exact runOn_holding_none others body hen

/-- A process that was entered can be entered again afterwards, unless it was given another space
in the meantime. -/
theorem Neutral.enterable {op : Op α} (h : op.Neutral others pid m) (ho : others.Honest)
    {eff : Effect (Except Error α)} (hrun : op.runOn others m = some eff) {space : SpaceId}
    {held : LockTable} (hgr : m.locks.Grants others pid space held)
    (hsame : eff.machine.locks.processes.find? pid = m.locks.processes.find? pid)
    (others' : Bystander) : eff.machine.locks.Enterable others' pid space := by
  have heff : ∀ {eff'}, op.runOn others m = some eff' → eff' = eff :=
    fun h => Option.some.inj (h.symm.trans hrun)
  -- a free space of a process without a hold stays open to it
  have hfree : ∀ {t : LockTable} {s : SpaceId}, t.SameLocks eff.machine.locks →
      t.holds.find? pid = none → t.isFree s = true → m.locks.processes.find? pid = some s →
      eff.machine.locks.Enterable others' pid s := by
    intro t s ht hf hs hp
    obtain ⟨hlt, hnone⟩ := (LockTable.isFree_iff t s).mp hs
    refine .free ((ht.holds pid).trans hf) (hsame.trans hp) ?_
    exact (LockTable.isFree_iff _ s).mpr ⟨by rw [ht.spaces]; exact hlt, (ht.holder s).trans hnone⟩
  obtain ⟨events, hen⟩ := hgr
  have hst := LockTable.started m.locks pid
  obtain ⟨s, hprogress, hnow⟩ | ⟨err, hprogress, hnow⟩ | ⟨s, gate, hprogress, hs, hnow⟩ :=
    LockTable.enterAlone_cases hen
  · injection hnow with _ _ hreply
    cases hreply
    generalize m.locks.start pid = out at hst hprogress
    cases hst with
    | joins hf hg hc =>
      cases hprogress
      obtain ⟨eff', hrun', hlocks, _⟩ := h.held _ hf hg
      cases heff hrun'
      exact .held ((hlocks.holds pid).trans hf) hg hc
    | takes hf hp hs =>
      cases hprogress
      obtain ⟨eff', _, hrun', hlocks, _⟩ := h.free _ hf hp hs
      cases heff hrun'
      exact hfree hlocks hf hs hp
    | waits hf hg | overflows hf hg hc | unknown hf hp | blocks hf hp hs => cases hprogress
  · cases hnow
  · injection hnow with _ _ hreply
    cases hreply
    obtain ⟨moves, hmoves⟩ := ho pid space (m.locks.start pid).table
    generalize hout : m.locks.start pid = out at hst hprogress
    cases hst with
    | blocks hf hp hs =>
      cases hprogress
      have htaken := h.taken space moves hf hp hs hmoves
      have hleft := (LockTable.Beside.start hf hp hs).foldl_moved moves rfl
      split at htaken
      · rename_i hback
        obtain ⟨eff', _, hrun', hlocks, _⟩ := htaken
        cases heff hrun'
        exact hfree hlocks hleft.unheld hback hp
      · rw [htaken] at hrun
        cases hrun
    | waits hf hg | joins hf hg hc | overflows hf hg hc | unknown hf hp | takes hf hp hs =>
      cases hprogress

end Op

/-! ### Reachable states -/

theorem World.count_pos {w : World α} (hw : w.Reachable) {pid : Pid} {hold : Hold}
    (hf : w.machine.locks.holds.find? pid = some hold) (hg : hold.gate = none) :
    0 < hold.count := by
  have hst := (World.kept hw).standing pid
  generalize w.initiators pid = phases at hst
  generalize Account.enter pid (some .idle) w.history = account at hst
  cases hst with
  | absent hf' hh =>
    rw [hf'] at hf
    cases hf
  | waiting hf' hh | taken hf' hh =>
    rw [hf'] at hf
    cases hf
    cases hg
  | held hf' hh =>
    rw [hf'] at hf
    cases hf
    exact Nat.succ_pos _

/-- Whoever comes for the process in the first world looks at the table in the second: at once, or
again after it has stood at the gate of a pending hold until that was open. -/
inductive World.Looks (pid : Pid) (w : World α) : World α → Prop where
  | first : Looks pid w w
  | again {u w' : World α} {hold : Hold} {gate : GateId} (h : Looks pid w u)
      (hf : u.machine.locks.holds.find? pid = some hold) (hg : hold.gate = some gate)
      (hmoves : Relation.ReflTransGen Move u w') (ho : w'.machine.locks.isOpen gate = true) :
      Looks pid w w'

theorem World.Reachable.moves {w w' : World α} (hw : w.Reachable)
    (h : Relation.ReflTransGen Move w w') : w'.Reachable := by
  induction h with
  | refl => exact hw
  | tail _ hm ih => exact ih.move hm

theorem World.Looks.reachable {w u : World α} {pid : Pid} (h : w.Looks pid u)
    (hw : w.Reachable) : u.Reachable := by
  induction h with
  | first => exact hw
  | again _ _ _ hmoves _ ih => exact ih.moves hmoves

theorem World.reachable_selfMapped : Reachable (⟨.selfMapped, [], []⟩ : World Unit) := by
  refine .start (fun pid => rfl) fun s pid => ?_
  cases s with
  | zero => nofun
  | succ s => nofun

end Paging
