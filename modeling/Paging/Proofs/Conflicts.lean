import Paging.Proofs.Solo

/-!
# Conflicts

Two actions of disciplined programs conflict when they meet in a root or in a word that one of them
changes. Actions that do not conflict can trade places (`Machine.trade`), and a program whose
actions do not conflict with another action does by itself the same before it as after it
(`passed`).
-/

namespace Paging

/-- What an action of a disciplined program reads or writes. -/
inductive Datum where
  | root (space : SpaceId)
  | word (address : PhysicalAddress)

def Datum.meets (shape : Memory) : Datum → Datum → Bool
  | .root s, .root s' => decide (s = s')
  | .word a, .word b => shape.overlap a b
  | _, _ => false

namespace Action

def datum? : Action → Option Datum
  | .readRoot s | .setRoot s _ => some (.root s)
  | .readWord a | .writeWord a _ => some (.word a)
  | _ => none

def meets (shape : Memory) (b c : Action) : Bool :=
  match b.datum?, c.datum? with
  | some d, some d' => d.meets shape d'
  | _, _ => false

theorem meets_comm (shape : Memory) (b c : Action) : b.meets shape c = c.meets shape b := by
  have hdata : ∀ d d' : Datum, d.meets shape d' = d'.meets shape d := by
    intro d d'
    cases d <;> cases d' <;> simp [Datum.meets, Memory.overlap_comm, eq_comm]
  unfold meets
  cases b.datum? with
  | none => cases c.datum? <;> rfl
  | some d =>
    cases c.datum? with
    | none => rfl
    | some d' => exact hdata d d'

end Action

/-- Whether an action leaves a root or a word other than it was. -/
def Machine.changes (m : Machine) : Action → Bool
  | .setRoot s root => decide (m.locks.root s ≠ root)
  | .writeWord a w => (m.memory.writeRefusal? a).isNone && decide (m.memory.wordAt a ≠ w)
  | _ => false

/-- An action, and whether it changed something when it was taken. -/
structure Taken where
  action : Action
  changed : Bool

def Machine.taken (m : Machine) (action : Action) : Taken := ⟨action, m.changes action⟩

/-- Two actions whose order can matter. -/
def Taken.conflicts (shape : Memory) (x y : Taken) : Bool :=
  x.action.meets shape y.action && (x.changed || y.changed)

/-! ### Actions that trade places -/

namespace Machine

variable {pid : Pid} {space : SpaceId} {shape : Memory} {b c : Action} {m n : Machine}

theorem SameData.changes (h : m.SameData n) (action : Action) :
    m.changes action = n.changes action := by
  cases action with
  | setRoot s root => simp only [Machine.changes, h.root]
  | writeWord a w => simp only [Machine.changes, h.memory]
  | release pid | readRoot s | readWord a | readBytes a k | writeBytes a bs | flush v | strategy
  | switchStrategy id | readRegister | writeRegister v | note k => rfl

theorem SameData.taken (h : m.SameData n) (action : Action) : m.taken action = n.taken action := by
  simp only [Machine.taken, h.changes]

theorem touch_of_not_changes (hb : Plain pid space shape b) (hs : shape.SameShape n.memory)
    (h : n.changes b = false) : (n.touch b).machine = n := by
  cases hb with
  | release | readRoot | flush vaddr | note notice => rfl
  | readWord a => exact (touch_readWord n a).1
  | setRoot root =>
    obtain rfl : n.locks.root space = root := by simpa [changes] using h
    show { n with locks := n.locks.setRoot space (n.locks.root space) } = n
    rw [LockTable.setRoot_root]
  | @writeWord a ha w =>
    rw [(touch_writeWord (hs.readable.mp ha) w).1]
    cases hr : n.memory.writeRefusal? a with
    | some r => rfl
    | none =>
      obtain rfl : n.memory.wordAt a = w := by simpa [changes, hr] using h
      show { n with memory := n.memory.laid a (n.memory.wordAt a) } = n
      rw [Memory.laid_wordAt]

theorem root_touch (hb : Plain pid space shape b) (hs : shape.SameShape n.memory)
    (h : b.meets shape (.readRoot space) = false) :
    (n.touch b).machine.locks.root space = n.locks.root space := by
  cases hb with
  | release | readRoot | flush vaddr | note notice => rfl
  | readWord a => rw [(touch_readWord n a).1]
  | setRoot root => simp [Action.meets, Action.datum?, Datum.meets] at h
  | writeWord ha w =>
    rw [(touch_writeWord (hs.readable.mp ha) w).1]
    split <;> rfl

theorem wordAt_touch (hb : Plain pid space shape b) (hs : shape.SameShape n.memory)
    {a : PhysicalAddress} (h : b.meets shape (.readWord a) = false) :
    (n.touch b).machine.memory.wordAt a = n.memory.wordAt a := by
  cases hb with
  | release | readRoot | setRoot root | flush vaddr | note notice => rfl
  | readWord a' => rw [(touch_readWord n a').1]
  | @writeWord a' ha w =>
    have hapart : n.memory.overlap a a' = false := by
      rw [← hs.overlap, Memory.overlap_comm]
      exact h
    rw [(touch_writeWord (hs.readable.mp ha) w).1]
    split
    · rfl
    · exact Memory.wordAt_laid hapart

theorem reply_touch (hb : Plain pid space shape b) (hc : Plain pid space shape c)
    (hs : shape.SameShape n.memory) (h : b.meets shape c = false) :
    ((n.touch b).machine.touch c).reply = (n.touch c).reply := by
  have hshape := sameShape_touch hb hs
  cases hc with
  | release | setRoot root | flush vaddr | note notice => rfl
  | readRoot => exact root_touch hb hs h
  | readWord a =>
    rw [(touch_readWord _ a).2, (touch_readWord n a).2, Memory.readWord_eq, Memory.readWord_eq,
      wordAt_touch hb hs h, ← hshape.readRefusal?, hs.readRefusal?]
  | @writeWord a ha w =>
    rw [(touch_writeWord (hshape.readable.mp ha) w).2, (touch_writeWord (hs.readable.mp ha) w).2,
      ← hshape.writeRefusal?, hs.writeRefusal?]

theorem changes_touch (hb : Plain pid space shape b) (hc : Plain pid space shape c)
    (hs : shape.SameShape n.memory) (h : b.meets shape c = false) :
    (n.touch b).machine.changes c = n.changes c := by
  have hshape := sameShape_touch hb hs
  cases hc with
  | release | readRoot | readWord a | flush vaddr | note notice => rfl
  | setRoot root => simp only [changes, root_touch hb hs h]
  | @writeWord a ha w =>
    simp only [changes, wordAt_touch hb hs h, ← hshape.writeRefusal?, ← hs.writeRefusal?]

theorem touch_comm (hb : Plain pid space shape b) (hc : Plain pid space shape c)
    (hs : shape.SameShape n.memory) (h : b.meets shape c = false) :
    ((n.touch b).machine.touch c).machine = ((n.touch c).machine.touch b).machine := by
  have hshape := sameShape_touch hb hs
  have hshape' := sameShape_touch hc hs
  cases hb with
  | release | readRoot | flush vaddr | note notice => rfl
  | readWord a => rw [(touch_readWord n a).1, (touch_readWord _ a).1]
  | setRoot root =>
    cases hc with
    | release | readRoot | flush vaddr | note notice => rfl
    | readWord a => rw [(touch_readWord _ a).1, (touch_readWord n a).1]
    | setRoot root' => simp [Action.meets, Action.datum?, Datum.meets] at h
    | @writeWord a ha w =>
      rw [(touch_writeWord (hshape.readable.mp ha) w).1,
        (touch_writeWord (hs.readable.mp ha) w).1, ← hshape.writeRefusal?, hs.writeRefusal?]
      cases n.memory.writeRefusal? a <;> rfl
  | @writeWord a ha w =>
    cases hc with
    | release | readRoot | flush vaddr | note notice => rfl
    | readWord a' => rw [(touch_readWord _ a').1, (touch_readWord n a').1]
    | setRoot root =>
      rw [(touch_writeWord (hshape'.readable.mp ha) w).1,
        (touch_writeWord (hs.readable.mp ha) w).1, ← hshape'.writeRefusal?, hs.writeRefusal?]
      cases n.memory.writeRefusal? a <;> rfl
    | @writeWord a' ha' w' =>
      have hapart : n.memory.overlap a a' = false := by
        rw [← hs.overlap]
        exact h
      rw [(touch_writeWord (hshape.readable.mp ha') w').1,
        (touch_writeWord (hshape'.readable.mp ha) w).1, ← hshape.writeRefusal?,
        ← hshape'.writeRefusal?, (touch_writeWord (hs.readable.mp ha) w).1,
        (touch_writeWord (hs.readable.mp ha') w').1, hs.writeRefusal?, hs.writeRefusal?]
      cases n.memory.writeRefusal? a with
      | some r => cases n.memory.writeRefusal? a' <;> rfl
      | none =>
        cases n.memory.writeRefusal? a' with
        | some r => rfl
        | none => simp only [Memory.laid_comm hapart]

/-- Whichever of two actions comes first, they answer the same, change the same and leave the same
machine. -/
structure Trade (b c : Action) (n : Machine) : Prop where
  reply : ((n.touch b).machine.touch c).reply = (n.touch c).reply
  reply' : ((n.touch c).machine.touch b).reply = (n.touch b).reply
  changes : (n.touch b).machine.changes c = n.changes c
  changes' : (n.touch c).machine.changes b = n.changes b
  machine : ((n.touch b).machine.touch c).machine = ((n.touch c).machine.touch b).machine

theorem trade (hb : Plain pid space shape b) (hc : Plain pid space shape c)
    (hs : shape.SameShape n.memory)
    (h : (n.taken b).conflicts shape ((n.touch b).machine.taken c) = false) : Trade b c n := by
  cases hmeets : b.meets shape c with
  | false =>
    have hmeets' : c.meets shape b = false := by rwa [Action.meets_comm]
    exact ⟨reply_touch hb hc hs hmeets, reply_touch hc hb hs hmeets', changes_touch hb hc hs hmeets,
      changes_touch hc hb hs hmeets', touch_comm hb hc hs hmeets⟩
  | true =>
    -- Where they meet, neither changes anything.
    simp only [Taken.conflicts, taken, hmeets, Bool.true_and, Bool.or_eq_false_iff] at h
    have hstill := touch_of_not_changes hb hs h.1
    rw [hstill] at h
    have hstill' := touch_of_not_changes hc hs h.2
    constructor <;> simp only [hstill, hstill']

end Machine

/-! ### An action past a program -/

variable {α : Type} {pid : Pid} {space : SpaceId} {shape : Memory} {stop depth : Nat}
  {post : α → Prop}

namespace Program

def acts (space : SpaceId) : Program α → Machine → List Taken
  | .done _, _ => []
  | .act action next, m =>
    m.taken action :: (next (m.touch action).reply).acts space (m.touch action).machine
  | .enter _ next, m => (next (.ok space)).acts space m

theorem acts_advance (space : SpaceId) (p : Program α) (m : Machine) :
    p.acts space m =
      p.action?.toList.map m.taken ++ (p.advance space m).1.acts space (p.advance space m).2 := by
  cases p <;> rfl

end Program

/-- A program does by itself the same before an action as after it. -/
structure Passed (space : SpaceId) (p : Program α) (b : Action) (n : Machine) : Prop where
  acts : p.acts space n = p.acts space (n.touch b).machine
  answer : (p.alone space n).2 = (p.alone space (n.touch b).machine).2
  machine : ((p.alone space n).1.touch b).machine = (p.alone space (n.touch b).machine).1
  reply : ((p.alone space n).1.touch b).reply = (n.touch b).reply

theorem passed {p : Program α} {b : Action} {n : Machine}
    (hp : p.Guarded pid space shape stop post depth) (hb : Machine.Plain pid space shape b)
    (hs : shape.SameShape n.memory)
    (h : ∀ x ∈ p.acts space (n.touch b).machine, (n.taken b).conflicts shape x = false) :
    Passed space p b n := by
  induction p generalizing n depth with
  | done a => exact ⟨rfl, rfl, rfl, rfl⟩
  | enter q next ih =>
    obtain ⟨hguarded, hshape⟩ := hp.advance hs
    obtain ⟨hacts, hanswer, hmachine, hreply⟩ := ih _ hguarded hshape h
    exact ⟨hacts, hanswer, hmachine, hreply⟩
  | act c next ih =>
    have htrade : Machine.Trade b c n := Machine.trade hb (hp.plain rfl) hs (h _ (.head _))
    -- The program goes on from `n.touch c`, and there again it does not conflict with `b`.
    have hrest : (Program.act c next).acts space (n.touch b).machine =
        n.taken c :: (next (n.touch c).reply).acts space ((n.touch c).machine.touch b).machine := by
      rw [Program.acts, htrade.reply, htrade.machine, Machine.taken, htrade.changes, Machine.taken]
    have halone : (Program.act c next).alone space (n.touch b).machine =
        (next (n.touch c).reply).alone space ((n.touch c).machine.touch b).machine := by
      rw [Program.alone, htrade.reply, htrade.machine]
    have hlater : (n.touch c).machine.taken b = n.taken b := by
      rw [Machine.taken, htrade.changes', Machine.taken]
    obtain ⟨hguarded, hshape⟩ := hp.advance hs
    obtain ⟨hacts, hanswer, hmachine, hreply⟩ := ih _ hguarded hshape fun x hx => by
      show ((n.touch c).machine.taken b).conflicts shape x = false
      rw [hlater]
      exact h x (hrest ▸ List.mem_cons_of_mem _ hx)
    constructor
    case acts => rw [hrest, Program.acts]; exact congrArg (n.taken c :: ·) hacts
    case answer => rw [halone]; exact hanswer
    case machine => rw [halone]; exact hmachine
    case reply => exact hreply.trans htrade.reply'

end Paging
