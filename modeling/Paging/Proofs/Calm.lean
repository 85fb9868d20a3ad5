import Paging.Proofs.Discipline
import Paging.Proofs.World

/-!
# Operations that leave locks alone

An operation is calm for a process if, run while the process is held, it comes to an end without a
call on any lock and leaves every hold and every lock as it found them. It may enter the process
again: that only counts one more reference, which it gives back, or fails because no more can be
counted (`Op.Calm.holding`). Calmness is a logic of operations (`OpLogic.calm`), so all walks and
edits are calm inside the space of their process.
-/

namespace Paging

namespace Event

/-- A call on the lock of a space. -/
def isLockCall : Event → Bool
  | tryLock _ _ | lock _ | unlock _ => true
  | _ => false

def lockCalls (es : List Event) : List Event := es.filter isLockCall

theorem lockCalls_append (es fs : List Event) :
    lockCalls (es ++ fs) = lockCalls es ++ lockCalls fs := List.filter_append ..

theorem lockCalls_ofNotices (ns : List Notice) : lockCalls (ofNotices ns) = [] := by
  induction ns with
  | nil => rfl
  | cons n ns ih => exact ih

end Event

/-- The second table has the processes, holds and locks of the first. -/
structure LockTable.SameLocks (t t' : LockTable) : Prop where
  processes : t'.processes = t.processes
  spaces : t'.spaces.length = t.spaces.length
  holds : ∀ pid, t'.holds.find? pid = t.holds.find? pid
  holder : ∀ s, t'.holder? s = t.holder? s

namespace LockTable.SameLocks

variable {t t' t'' : LockTable}

theorem refl (t : LockTable) : t.SameLocks t := ⟨rfl, rfl, fun _ => rfl, fun _ => rfl⟩

theorem trans (h : t.SameLocks t') (h' : t'.SameLocks t'') : t.SameLocks t'' where
  processes := h'.processes.trans h.processes
  spaces := h'.spaces.trans h.spaces
  holds pid := (h'.holds pid).trans (h.holds pid)
  holder s := (h'.holder s).trans (h.holder s)

end LockTable.SameLocks

variable {α β : Type}

/-- Run while the process is held, the operation ends with all locks as they were, without a call on
one of them, and with an answer as said if it answers. -/
def Op.Calm (pid : Pid) (P : α → Prop) (op : Op α) : Prop :=
  ∀ (others : Bystander) (m : Machine) (hold : Hold), m.locks.holds.find? pid = some hold →
    hold.gate = none → 0 < hold.count →
    ∃ eff, op.runOn others m = some eff ∧ m.locks.SameLocks eff.machine.locks ∧
      Event.lockCalls eff.events = [] ∧ ∀ a, eff.reply = .ok a → P a

theorem Machine.lockCalls_perform (m : Machine) {action : Action}
    (hne : ∀ pid, action ≠ .release pid) : Event.lockCalls (m.perform action).events = [] := by
  have hrefused : ∀ (first : Event) (ns : List Notice), first.isLockCall = false →
      Event.lockCalls (first :: Event.ofNotices ns) = [] := by
    intro first ns hfirst
    show List.filter _ _ = []
    rw [List.filter_cons_of_neg (by simp [hfirst])]
    exact Event.lockCalls_ofNotices ns
  cases action with
  | release pid => exact absurd rfl (hne pid)
  | readWord a | writeWord a w | readBytes a n | writeBytes a bs =>
    simp only [perform]
    split
    · rfl
    · exact hrefused _ _ rfl
  | switchStrategy id =>
    simp only [perform]
    split
    · rfl
    · exact Event.lockCalls_ofNotices _
  | readRoot s | setRoot s root | flush v | strategy | readRegister | writeRegister v | note n => rfl

theorem Machine.sameLocks_perform (m : Machine) {action : Action}
    (hne : ∀ pid, action ≠ .release pid) : m.locks.SameLocks (m.perform action).machine.locks := by
  obtain ⟨pid, rfl, _⟩ | ⟨s, root, rfl, hlocks⟩ | ⟨_, hlocks⟩ := m.locks_perform action
  · exact absurd rfl (hne pid)
  · rw [hlocks]
    exact ⟨rfl, List.length_modify .., fun _ => rfl, LockTable.holder?_setRoot m.locks s root⟩
  · rw [hlocks]
    exact .refl _

namespace Op.Calm

variable {pid : Pid} {P : α → Prop} {Q : β → Prop}

theorem pure {a : α} (h : P a) : Calm pid P (pure a) := by
  intro others m hold _ _ _
  refine ⟨⟨[], m, .ok a⟩, rfl, .refl _, rfl, fun b hb => ?_⟩
  cases hb
  exact h

theorem mk_pure (r : Except Error α) : Calm pid (fun _ => True) (ExceptT.mk (Pure.pure r)) :=
  fun _ m _ _ _ _ => ⟨⟨[], m, r⟩, rfl, .refl _, rfl, fun _ _ => trivial⟩

theorem bind {op : Op α} {f : α → Op β} (h : Calm pid P op) (hf : ∀ a, P a → Calm pid Q (f a)) :
    Calm pid Q (op >>= f) := by
  intro others m hold hfind hg hc
  obtain ⟨⟨es, m', reply⟩, hrun, hsame, hcalls, hpost⟩ := h others m hold hfind hg hc
  cases reply with
  | error err =>
    exact ⟨_, runOn_bind_error others hrun f, hsame, hcalls, nofun⟩
  | ok a =>
    have hfind' : m'.locks.holds.find? pid = some hold := (hsame.holds pid).trans hfind
    obtain ⟨eff, hrun', hsame', hcalls', hpost'⟩ := hf a (hpost a rfl) others m' hold hfind' hg hc
    refine ⟨eff.after es, ?_, hsame.trans hsame', ?_, hpost'⟩
    · rw [runOn_bind_ok others hrun f, hrun']
      rfl
    · show Event.lockCalls (es ++ eff.events) = []
      rw [Event.lockCalls_append, hcalls, hcalls', List.append_nil]

theorem lift_run {op : Op α} (h : Calm pid P op) :
    Calm pid (fun r => ∀ a, r = .ok a → P a) (ExceptT.lift op.run) := by
  intro others m hold hfind hg hc
  obtain ⟨⟨es, m', reply⟩, hrun, hsame, hcalls, hpost⟩ := h others m hold hfind hg hc
  refine ⟨_, runOn_lift_run others hrun, hsame, hcalls, fun r hr => ?_⟩
  cases hr
  exact hpost

theorem act {op : Op α} (action : Action) (g : action.Reply → Except Error α)
    (h : op.run = .act action fun r => .done (g r)) (hne : ∀ pid, action ≠ .release pid) :
    Calm pid (fun _ => True) op :=
  fun others m _ _ _ _ => ⟨_, runOn_act others h m, m.sameLocks_perform hne,
    m.lockCalls_perform hne, fun _ _ => trivial⟩

theorem holding {body : SpaceId → Op α} (h : ∀ s, Calm pid P (body s)) :
    Calm pid P (Op.holding pid body) := by
  intro others m hold hfind hg hc
  obtain ⟨space, count, gate⟩ := hold
  cases hg
  by_cases hlt : count + 1 < LockTable.countLimit
  · have hen := LockTable.enterAlone_held others hfind rfl hlt
    let joined : Machine := { m with locks := { m.locks with
      holds := m.locks.holds.insert pid ⟨space, count + 1, none⟩ } }
    have hjoined : joined.locks.holds.find? pid = some ⟨space, count + 1, none⟩ := by
      simp [joined, PidMap.find?_insert]
    obtain ⟨eff, hrun, hsame, hcalls, hpost⟩ :=
      h space others joined _ hjoined rfl (Nat.succ_pos _)
    have hleft := (hsame.holds pid).trans hjoined
    have hrelease : eff.machine.locks.release pid =
        ([], { eff.machine.locks with
          holds := eff.machine.locks.holds.insert pid ⟨space, count, none⟩ }) := by
      have hne : count ≠ 0 := Nat.ne_of_gt hc
      simp [LockTable.release, hleft, hne]
    refine ⟨(eff.released pid).after [], ?_, ?_, ?_, hpost⟩
    · have hwhole : (Op.holding pid body).runOn others m =
          ((body space).runOn others joined).map fun e => (e.released pid).after [] :=
        runOn_holding_granted others body hen rfl
      rw [hwhole, hrun]
      rfl
    · simp only [Effect.after, Effect.released, hrelease]
      refine ⟨hsame.processes, hsame.spaces, fun q => ?_, hsame.holder⟩
      have hq := hsame.holds q
      simp only [joined, PidMap.find?_insert] at hq ⊢
      by_cases hpq : pid = q
      · rw [if_pos hpq, ← hpq, hfind]
      · rwa [if_neg hpq] at hq ⊢
    · simp only [Effect.after, Effect.released, hrelease, List.nil_append, List.append_nil]
      exact hcalls
  · have hen := LockTable.enterAlone_overflow others hfind rfl hlt
    exact ⟨_, runOn_holding_refused others body hen rfl, .refl _, rfl, fun _ hok => by cases hok⟩

end Op.Calm

def OpLogic.calm (pid : Pid) : OpLogic pid where
  Holds _ P op := op.Calm pid P
  Granted _ := True
  Read _ := True
  pure := Op.Calm.pure
  bind := Op.Calm.bind
  liftRun := Op.Calm.lift_run
  mkPure := Op.Calm.mk_pure
  holding _ h := Op.Calm.holding fun s => h s trivial
  note n := Op.Calm.act (.note n) .ok rfl fun _ => nofun
  flush v := Op.Calm.act (.flush v) .ok rfl fun _ => nofun
  readRoot {_ s} _ := Op.Calm.act (.readRoot s) .ok rfl fun _ => nofun
  setRoot {_ s} root _ := Op.Calm.act (.setRoot s root) .ok rfl fun _ => nofun
  readWord {_ a} _ := Op.Calm.act (.readWord a) id rfl fun _ => nofun
  writeWord {_ a} w _ _ := Op.Calm.act (.writeWord a w) id rfl fun _ => nofun

end Paging
