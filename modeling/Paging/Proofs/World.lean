import Paging.Proofs.Locks
import Paging.Schedule

/-!
# Worlds of many callers

Any number of callers on one machine, each with a program of its own, together with everybody else:
new callers come at any time, others take and give back locks, change the process table and release
processes that they do not hold. A move of the world is one atomic step of one of them. The history
of a world says what has become of locks and references so far, as it was seen from outside.
-/

namespace Paging

/-- What becomes of the lock and of the references of a process. -/
inductive Deed where
  /-- The lock of a space is taken for the process. -/
  | locked (pid : Pid) (space : SpaceId)
  /-- Its first reference is there and can be joined. -/
  | published (pid : Pid)
  | joined (pid : Pid)
  /-- A reference is given back. -/
  | left (pid : Pid)
  | unlocked (pid : Pid) (space : SpaceId)
deriving DecidableEq

namespace Deed

def pid : Deed → Pid
  | locked pid _ | published pid | joined pid | left pid | unlocked pid _ => pid

/-- The deeds of one step of entering, told by the phase, how it goes on and what is seen. -/
def ofEntry (pid : Pid) (phase : Phase) (s : Step) : List Deed :=
  match phase, s.progress, s.events with
  | .start, .granted _, .tryLock space true :: _ => [locked pid space, published pid]
  | .start, .granted _, _ => [joined pid]
  | .blocked _ _, .next (.publishing space _), _ => [locked pid space]
  | .publishing _ _, .next (.opening _ _), _ => [published pid]
  | _, _, _ => []

/-- The deeds of a release: one that is ignored leaves a notice, one that gives back the lock is
seen to do so and one that does neither is not seen at all. -/
def ofRelease (pid : Pid) : List Event → List Deed
  | [] => [left pid]
  | .unlock space :: _ => [left pid, unlocked pid space]
  | _ => []

end Deed

def OutsideMove.deeds (t : LockTable) : OutsideMove → List Deed
  | .release pid => Deed.ofRelease pid (t.release pid).1
  | _ => []

namespace Caller

variable {α : Type}

/-- The deeds of the next step of a caller. -/
def deeds (c : Caller α) (m : Machine) : List Deed :=
  match c.rest with
  | .enter pid _ => ((m.locks.enterStep pid c.phase).map (Deed.ofEntry pid c.phase)).getD []
  | .act (.release pid) _ => Deed.ofRelease pid (m.locks.release pid).1
  | _ => []

end Caller

structure World (α : Type) where
  machine : Machine
  callers : List (Caller α)
  history : List Deed

namespace World

variable {α : Type}

/-- One step of anybody. -/
inductive Move : World α → World α → Prop where
  | call {m : Machine} {before after : List (Caller α)} {c : Caller α} {history : List Deed}
      {now : Effect (Caller α)} (hs : c.step m = some now) :
      Move ⟨m, before ++ c :: after, history⟩
        ⟨now.machine, before ++ now.reply :: after, history ++ c.deeds m⟩
  | arrive {m : Machine} {callers : List (Caller α)} {history : List Deed} (p : Program α) :
      Move ⟨m, callers, history⟩ ⟨m, callers ++ [.fresh p], history⟩
  | outside {m : Machine} {callers : List (Caller α)} {history : List Deed}
      (move : OutsideMove) :
      Move ⟨m, callers, history⟩
        ⟨{ m with locks := m.locks.moved move }, callers, history ++ move.deeds m.locks⟩

/-- Worlds that come about from a machine on which no process is held. -/
inductive Reachable : World α → Prop where
  | start {m : Machine} (hf : ∀ pid, m.locks.holds.find? pid = none)
      (hh : ∀ s pid, m.locks.holder? s ≠ some (.table pid)) : Reachable ⟨m, [], []⟩
  | move {w w' : World α} (hw : Reachable w) (hm : Move w w') : Reachable w'

end World

/-! ### Initiators -/

def Phase.initiates : Phase → Bool
  | .blocked _ _ | .publishing _ _ => true
  | .start | .waiting _ | .opening _ _ => false

def Phase.pending (phase : Phase) : List Phase := if phase.initiates then [phase] else []

def Step.pending (s : Step) : List Phase :=
  match s.progress with
  | .next phase => phase.pending
  | _ => []

namespace Caller

variable {α : Type}

/-- The phase of a caller that is the initiator of a pending hold of the process. -/
def pending (pid : Pid) (c : Caller α) : List Phase :=
  match c.rest with
  | .enter p _ => if p = pid then c.phase.pending else []
  | _ => []

theorem pending_fresh (pid : Pid) (p : Program α) : (fresh p).pending pid = [] := by
  cases p with
  | enter q next =>
    by_cases h : q = pid <;> simp [fresh, pending, h, Phase.pending, Phase.initiates]
  | done a | act action next => rfl

end Caller

/-- The phases of all callers that are still inside as initiators of the process. -/
def World.initiators {α : Type} (w : World α) (pid : Pid) : List Phase :=
  w.callers.flatMap (Caller.pending pid)

/-! ### Locks and actions -/

theorem LockTable.holder?_setRoot (t : LockTable) (s : SpaceId) (root : PhysicalAddress)
    (r : SpaceId) : (t.setRoot s root).holder? r = t.holder? r := by
  unfold holder? setRoot
  simp only [List.getElem?_modify]
  cases t.spaces[r]? with
  | none => rfl
  | some a => by_cases hr : s = r <;> simp [hr]

/-- The only actions that touch locks are releases and changes of a root. -/
theorem Machine.locks_perform (m : Machine) (action : Action) :
    (∃ pid, action = .release pid ∧ (m.perform action).machine.locks = (m.locks.release pid).2) ∨
    (∃ s root, action = .setRoot s root ∧
      (m.perform action).machine.locks = m.locks.setRoot s root) ∨
    ((∀ pid, action ≠ .release pid) ∧ (m.perform action).machine.locks = m.locks) := by
  cases action with
  | release pid => exact .inl ⟨pid, rfl, rfl⟩
  | setRoot s root => exact .inr (.inl ⟨s, root, rfl, rfl⟩)
  | readWord a =>
    refine .inr (.inr ⟨fun _ => nofun, ?_⟩)
    simp only [perform]
    split <;> rfl
  | writeWord a w =>
    refine .inr (.inr ⟨fun _ => nofun, ?_⟩)
    simp only [perform]
    split <;> rfl
  | readBytes a n =>
    refine .inr (.inr ⟨fun _ => nofun, ?_⟩)
    simp only [perform]
    split <;> rfl
  | writeBytes a bs =>
    refine .inr (.inr ⟨fun _ => nofun, ?_⟩)
    simp only [perform]
    split <;> rfl
  | switchStrategy id =>
    refine .inr (.inr ⟨fun _ => nofun, ?_⟩)
    simp only [perform]
    split <;> rfl
  | readRoot s | flush v | strategy | readRegister | writeRegister v | note n =>
    exact .inr (.inr ⟨fun _ => nofun, rfl⟩)

end Paging
