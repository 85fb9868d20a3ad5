import Paging.Proofs.Discipline
import Paging.Proofs.Entering
import Paging.Proofs.World

/-!
# Disciplined programs and their locks

While a process can be entered at once (`LockTable.Ready`), a disciplined program is let into its
space whenever it asks, so that locks decide nothing about it. What it answers and what it does to
memory and to the root is then what it does all by itself, with the space handed out for the asking
(`Program.alone`): one step of a caller is one step of that (`step_guarded`) and a whole run is the
whole of it (`run_guarded`).
-/

namespace Paging

variable {α : Type}

/-! ### Programs by themselves -/

/-- What an action does where no references are counted. -/
def Machine.touch (m : Machine) : (action : Action) → Effect action.Reply
  | .release _ => ⟨[], m, ()⟩
  | action => m.perform action

namespace Program

/-- What becomes of a program and the machine in one step. -/
def advance (space : SpaceId) : Program α → Machine → Program α × Machine
  | .done a, m => (.done a, m)
  | .act action next, m => (next (m.touch action).reply, (m.touch action).machine)
  | .enter _ next, m => (next (.ok space), m)

def alone (space : SpaceId) : Program α → Machine → Machine × α
  | .done a, m => (m, a)
  | .act action next, m => (next (m.touch action).reply).alone space (m.touch action).machine
  | .enter _ next, m => (next (.ok space)).alone space m

def action? : Program α → Option Action
  | .act action _ => some action
  | _ => none

def finished : Program α → Bool
  | .done _ => true
  | _ => false

theorem alone_advance (space : SpaceId) (p : Program α) (m : Machine) :
    p.alone space m = (p.advance space m).1.alone space (p.advance space m).2 := by
  cases p <;> rfl

end Program

/-! ### Machines that differ in references only -/

/-- Two machines with the same contents, whoever holds the spaces. -/
structure Machine.SameData (m n : Machine) : Prop where
  memory : m.memory = n.memory
  root : ∀ s, m.locks.root s = n.locks.root s
  spaces : m.locks.spaces.length = n.locks.spaces.length

namespace Machine.SameData

variable {m n k : Machine}

theorem refl (m : Machine) : m.SameData m := ⟨rfl, fun _ => rfl, rfl⟩

theorem symm (h : m.SameData n) : n.SameData m :=
  ⟨h.memory.symm, fun s => (h.root s).symm, h.spaces.symm⟩

theorem trans (h : m.SameData n) (h' : n.SameData k) : m.SameData k :=
  ⟨h.memory.trans h'.memory, fun s => (h.root s).trans (h'.root s), h.spaces.trans h'.spaces⟩

end Machine.SameData

/-! ### Processes that can be entered at once -/

/-- The process has a space and `n` references to it are out; with none out, the space is free. -/
structure LockTable.Ready (t : LockTable) (pid : Pid) (space : SpaceId) (n : Nat) : Prop where
  named : t.processes.find? pid = some space
  lt : space < t.spaces.length
  free : n = 0 → t.holds.find? pid = none ∧ t.holder? space = none
  held : 0 < n → t.holds.find? pid = some ⟨space, n, none⟩

namespace LockTable.Ready

variable {t : LockTable} {pid : Pid} {space : SpaceId} {n : Nat}

theorem start (h : t.Ready pid space n) (hn : n + 1 < countLimit) :
    (t.start pid).progress = .granted space ∧ (t.start pid).table.Ready pid space (n + 1) := by
  cases n with
  | zero =>
    obtain ⟨hf, hh⟩ := h.free rfl
    have hfree : t.isFree space = true := (isFree_iff t space).mpr ⟨h.lt, hh⟩
    have hstart : t.start pid = ⟨.granted space, [.tryLock space true],
        { t.setHolder space (some (.table pid)) with
          holds := t.holds.insert pid ⟨space, 1, none⟩ }⟩ := by
      simp [LockTable.start, hf, h.named, hfree]
    rw [hstart]
    refine ⟨rfl, h.named, ?_, fun h0 => absurd h0 (Nat.succ_ne_zero _), fun _ => ?_⟩
    · simpa [setHolder] using h.lt
    · simp [PidMap.find?_insert]
  | succ k =>
    have hf := h.held (Nat.succ_pos k)
    have hstart : t.start pid =
        ⟨.granted space, [], { t with holds := t.holds.insert pid ⟨space, k + 2, none⟩ }⟩ := by
      simp [LockTable.start, hf, hn]
    rw [hstart]
    refine ⟨rfl, h.named, h.lt, fun h0 => absurd h0 (Nat.succ_ne_zero _), fun _ => ?_⟩
    simp [PidMap.find?_insert]

theorem release (h : t.Ready pid space (n + 1)) : (t.release pid).2.Ready pid space n := by
  have hf := h.held (Nat.succ_pos n)
  cases n with
  | zero =>
    have hrelease : (t.release pid).2 =
        { t.setHolder space none with holds := t.holds.erase pid } := by
      simp [LockTable.release, hf]
    rw [hrelease]
    refine ⟨h.named, ?_, fun _ => ⟨?_, ?_⟩, fun h0 => absurd h0 (Nat.lt_irrefl 0)⟩
    · simpa [setHolder] using h.lt
    · simp [PidMap.find?_erase]
    · show (t.setHolder space none).holder? space = none
      rw [holder?_setHolder t none h.lt, if_pos rfl]
  | succ k =>
    have hrelease : (t.release pid).2 =
        { t with holds := t.holds.insert pid ⟨space, k + 1, none⟩ } := by
      simp [LockTable.release, hf]
    rw [hrelease]
    refine ⟨h.named, h.lt, fun h0 => absurd h0 (Nat.succ_ne_zero _), fun _ => ?_⟩
    simp [PidMap.find?_insert]

theorem setRoot (h : t.Ready pid space n) (s : SpaceId) (root : PhysicalAddress) :
    (t.setRoot s root).Ready pid space n := by
  refine ⟨h.named, ?_, fun h0 => ⟨(h.free h0).1, ?_⟩, h.held⟩
  · simpa [LockTable.setRoot] using h.lt
  · rw [holder?_setRoot]
    exact (h.free h0).2

end LockTable.Ready

/-! ### One action -/

namespace Machine

variable {m n : Machine}

/-- The actions of disciplined programs. -/
inductive Plain (pid : Pid) (space : SpaceId) (shape : Memory) : Action → Prop where
  | release : Plain pid space shape (.release pid)
  | readRoot : Plain pid space shape (.readRoot space)
  | setRoot (root : PhysicalAddress) : Plain pid space shape (.setRoot space root)
  | readWord (a : PhysicalAddress) : Plain pid space shape (.readWord a)
  | writeWord {a : PhysicalAddress} (ha : shape.Readable a) (w : Word) :
      Plain pid space shape (.writeWord a w)
  | flush (vaddr : VirtualAddress) : Plain pid space shape (.flush vaddr)
  | note (notice : Notice) : Plain pid space shape (.note notice)

variable {pid : Pid} {space : SpaceId} {shape : Memory} {action : Action}

theorem touch_readWord (m : Machine) (a : PhysicalAddress) :
    (m.touch (.readWord a)).machine = m ∧
      (m.touch (.readWord a)).reply = (m.memory.readWord a).mapError Refusal.error := by
  show (m.perform (.readWord a)).machine = m ∧ (m.perform (.readWord a)).reply = _
  simp only [perform]
  cases m.memory.readWord a <;> exact ⟨rfl, rfl⟩

theorem touch_writeWord {a : PhysicalAddress} (ha : m.memory.Readable a) (w : Word) :
    (m.touch (.writeWord a w)).machine =
        (match m.memory.writeRefusal? a with
        | some _ => m
        | none => { m with memory := m.memory.laid a w }) ∧
      (m.touch (.writeWord a w)).reply =
        (match m.memory.writeRefusal? a with
        | some r => .error r.error
        | none => .ok ()) := by
  have hwrite := Memory.writeWord_of_readable ha w
  show (m.perform (.writeWord a w)).machine = _ ∧ (m.perform (.writeWord a w)).reply = _
  cases hr : m.memory.writeRefusal? a with
  | some r =>
    simp only [hr] at hwrite
    simp [perform, hwrite]
  | none =>
    simp only [hr] at hwrite
    simp [perform, hwrite]

theorem sameShape_touch (ha : Plain pid space shape action) (hs : shape.SameShape m.memory) :
    shape.SameShape (m.touch action).machine.memory := by
  cases ha with
  | release | readRoot | setRoot root | flush vaddr | note notice => exact hs
  | readWord a => rwa [(touch_readWord m a).1]
  | writeWord ha w =>
    rw [(touch_writeWord (hs.readable.mp ha) w).1]
    split
    · exact hs
    · exact hs.trans (Memory.sameShape_laid _ _ _)

theorem sameData_touch (ha : Plain pid space shape action) (h : m.SameData n) :
    (m.touch action).reply = (n.touch action).reply ∧
      (m.touch action).machine.SameData (n.touch action).machine := by
  obtain ⟨hmemory, hroot, hspaces⟩ := h
  cases ha with
  | release | flush vaddr | note notice => exact ⟨rfl, hmemory, hroot, hspaces⟩
  | readRoot => exact ⟨hroot space, hmemory, hroot, hspaces⟩
  | setRoot root =>
    refine ⟨rfl, hmemory, fun s => ?_, ?_⟩
    · show (m.locks.setRoot space root).root s = (n.locks.setRoot space root).root s
      rw [LockTable.root_setRoot, LockTable.root_setRoot, hroot, hspaces]
    · simpa [touch, perform, LockTable.setRoot] using hspaces
  | readWord a =>
    obtain ⟨hm, hmr⟩ := touch_readWord m a
    obtain ⟨hn, hnr⟩ := touch_readWord n a
    rw [hm, hn, hmr, hnr, hmemory]
    exact ⟨rfl, hmemory, hroot, hspaces⟩
  | @writeWord a ha w =>
    show (m.perform (.writeWord a w)).reply = (n.perform (.writeWord a w)).reply ∧
      (m.perform (.writeWord a w)).machine.SameData (n.perform (.writeWord a w)).machine
    simp only [perform, hmemory]
    cases n.memory.writeWord a w with
    | ok memory => exact ⟨rfl, rfl, hroot, hspaces⟩
    | error r => exact ⟨rfl, hmemory, hroot, hspaces⟩

theorem ready_touch (ha : Plain pid space shape action) (hs : shape.SameShape m.memory) {k : Nat}
    (hr : m.locks.Ready pid space k) : (m.touch action).machine.locks.Ready pid space k := by
  cases ha with
  | release | readRoot | flush vaddr | note notice => exact hr
  | setRoot root => exact hr.setRoot space root
  | readWord a => rwa [(touch_readWord m a).1]
  | writeWord ha w =>
    rw [(touch_writeWord (hs.readable.mp ha) w).1]
    split <;> exact hr

end Machine

/-! ### One step -/

variable {pid : Pid} {space : SpaceId} {shape : Memory} {stop depth rest : Nat} {post : α → Prop}
  {p : Program α} {m n : Machine}

theorem Program.Guarded.plain (hp : p.Guarded pid space shape stop post depth) {action : Action}
    (ha : p.action? = some action) : Machine.Plain pid space shape action := by
  cases hp with
  | done h | enter hd h => cases ha
  | release h => cases ha; exact .release
  | readRoot h => cases ha; exact .readRoot
  | setRoot h => cases ha; exact .setRoot _
  | readWord hok herr => cases ha; exact .readWord _
  | writeWord hw h => cases ha; exact .writeWord hw _
  | flush h => cases ha; exact .flush _
  | note h => cases ha; exact .note _

/-- References held after a step, given those before. -/
def Program.depthAfter : Program α → Nat → Nat
  | .enter _ _, depth => depth + 1
  | .act (.release _) _, depth => depth - 1
  | _, depth => depth

theorem Program.Guarded.advance (hp : p.Guarded pid space shape stop post depth)
    (hs : shape.SameShape n.memory) :
    (p.advance space n).1.Guarded pid space shape stop post (p.depthAfter depth) ∧
      shape.SameShape (p.advance space n).2.memory := by
  have hshape : ∀ action, p.action? = some action →
      shape.SameShape (n.touch action).machine.memory :=
    fun action ha => Machine.sameShape_touch (hp.plain ha) hs
  cases hp with
  | done h => exact ⟨.done h, hs⟩
  | enter hd h => exact ⟨h, hs⟩
  | release h | setRoot h | flush h | note h => exact ⟨h, hshape _ rfl⟩
  | readRoot h => exact ⟨h _, hshape _ rfl⟩
  | writeWord ha h => exact ⟨h _, hshape _ rfl⟩
  | @readWord depth a next hok herr =>
    refine ⟨?_, hshape _ rfl⟩
    show (next (n.touch (.readWord a)).reply).Guarded pid space shape stop post depth
    rw [(Machine.touch_readWord n a).2]
    cases hw : n.memory.readWord a with
    | ok w => exact hok w (hs.readable.mpr ⟨w, hw⟩)
    | error r => exact herr r.error

/-- A step of a caller that agrees with the step of its program by itself. -/
structure Stepped (pid : Pid) (space : SpaceId) (references : Nat) (now : Effect (Caller α))
    (q : Program α) (n : Machine) : Prop where
  reply : now.reply = .fresh q
  data : now.machine.SameData n
  ready : now.machine.locks.Ready pid space references

theorem step_act {action : Action} {next : action.Reply → Program α} {references : Nat}
    (ha : Machine.Plain pid space shape action) (hne : ∀ q, action ≠ .release q)
    (hr : m.locks.Ready pid space references) (hd : m.SameData n)
    (hs : shape.SameShape n.memory) :
    ∃ now, (Caller.fresh (.act action next)).step m = some now ∧
      Stepped pid space references now ((Program.act action next).advance space n).1
        ((Program.act action next).advance space n).2 := by
  have htouch : m.touch action = m.perform action := by
    cases action with
    | release q => exact absurd rfl (hne q)
    | readRoot s | setRoot s root | readWord a | writeWord a v | readBytes a k | writeBytes a bs
    | flush v | strategy | switchStrategy id | readRegister | writeRegister v | note k => rfl
  have hsm : shape.SameShape m.memory := by rwa [hd.memory]
  obtain ⟨hreply, hdata⟩ := Machine.sameData_touch ha hd
  have hready := Machine.ready_touch ha hsm hr
  rw [htouch] at hreply hdata hready
  refine ⟨_, rfl, ?_, hdata, hready⟩
  show Caller.fresh (next (m.perform action).reply) = _
  rw [hreply]
  rfl

/-- A caller that has not ended takes its step, whatever references to the process others hold, and
the step is that of its program by itself. -/
theorem step_guarded (hp : p.Guarded pid space shape stop post depth)
    (hu : p.finished = false) (hr : m.locks.Ready pid space (rest + depth))
    (hb : rest + 2 < LockTable.countLimit) (hd : m.SameData n) (hs : shape.SameShape n.memory) :
    ∃ now, (Caller.fresh p).step m = some now ∧
      Stepped pid space (rest + p.depthAfter depth) now (p.advance space n).1
        (p.advance space n).2 := by
  have hplain := @hp.plain
  cases hp with
  | done h => cases hu
  | @enter depth next hlt h =>
    obtain ⟨hgranted, hready⟩ := hr.start (by omega)
    refine ⟨⟨(m.locks.start pid).events, { m with locks := (m.locks.start pid).table },
      .fresh (next (.ok space))⟩, ?_, rfl, ?_, hready⟩
    · simp only [Caller.step, Caller.fresh, LockTable.enterStep, Option.map_some, hgranted]
    · constructor
      case memory => exact hd.memory
      case root => exact fun s => (LockTable.root_start m.locks pid s).trans (hd.root s)
      case spaces => exact (LockTable.length_spaces_start m.locks pid).trans hd.spaces
  | @release depth next h =>
    have hready := LockTable.Ready.release (n := rest + depth) hr
    refine ⟨_, rfl, rfl, ?_, hready⟩
    constructor
    case memory => exact hd.memory
    case root => exact fun s => (LockTable.root_release m.locks pid s).trans (hd.root s)
    case spaces => exact (LockTable.length_spaces_release m.locks pid).trans hd.spaces
  | readRoot h | setRoot h | readWord hok herr | writeWord ha h | flush h | note h =>
    refine step_act (hplain rfl) (fun q hq => ?_) hr hd hs
    cases hq

theorem Program.Guarded.depthAfter_le (hp : p.Guarded pid space shape stop post depth)
    (hle : depth ≤ 2) : p.depthAfter depth ≤ 2 := by
  cases hp with
  | enter hd h => exact hd
  | release h => exact Nat.le_of_succ_le hle
  | done h | readRoot h | setRoot h | readWord hok herr | writeWord ha h | flush h | note h =>
    exact hle

/-! ### Whole runs -/

theorem run_of_step (others : Bystander) {now : Effect (Caller α)} {r : Program α}
    (hready : ∃ k, m.locks.Ready pid space k ∧ k + 1 < LockTable.countLimit)
    (hp : ∀ k next, p = .enter k next → k = pid)
    (h : (Caller.fresh p).step m = some now) (hq : now.reply = .fresh r) :
    p.run others m = (r.run others now.machine).map (Effect.after now.events) := by
  cases p with
  | done a => cases h
  | act action next =>
    cases h
    have hrest : next (m.perform action).reply = r := congrArg Caller.rest hq
    rw [Program.run_act, hrest]
  | enter q next =>
    obtain rfl := hp q next rfl
    obtain ⟨k, hk, hlt⟩ := hready
    obtain ⟨hgranted, _⟩ := hk.start hlt
    simp only [Caller.step, Caller.fresh, LockTable.enterStep, Option.map_some, hgranted,
      Option.some.injEq] at h
    subst h
    have hrest : next (.ok space) = r := congrArg Caller.rest hq
    have hen : m.locks.enterAlone others q =
        some ⟨(m.locks.start q).events, (m.locks.start q).table, .ok space⟩ := by
      simp [LockTable.enterAlone, hgranted]
    rw [Program.run_enter, hen, ← hrest]
    rfl

theorem Program.Guarded.pid_eq (hp : p.Guarded pid space shape stop post depth) {q : Pid}
    {next : Except Error SpaceId → Program α} (h : p = .enter q next) : q = pid := by
  subst h
  cases hp
  rfl

/-- A run that agrees with its program by itself. -/
structure Completed (pid : Pid) (space : SpaceId) (shape : Memory) (references : Nat)
    (post : α → Prop) (eff : Effect α) (n : Machine) (a : α) : Prop where
  reply : eff.reply = a
  answer : post a
  data : eff.machine.SameData n
  ready : eff.machine.locks.Ready pid space references
  shape : shape.SameShape n.memory

/-- A run goes on as its first step leaves the machine. -/
theorem run_of_stepped (others : Bystander) (hp : p.Guarded pid space shape stop post depth)
    (hu : p.finished = false) (hr : m.locks.Ready pid space (rest + depth))
    (hle : depth ≤ 2) (hb : rest + 3 < LockTable.countLimit) (hd : m.SameData n)
    (hs : shape.SameShape n.memory)
    (hrest : ∀ now : Effect (Caller α), Stepped pid space (rest + p.depthAfter depth) now
      (p.advance space n).1 (p.advance space n).2 →
        ∃ eff, (p.advance space n).1.run others now.machine = some eff ∧
          Completed pid space shape (rest + stop) post eff (p.alone space n).1
            (p.alone space n).2) :
    ∃ eff, p.run others m = some eff ∧
      Completed pid space shape (rest + stop) post eff (p.alone space n).1
        (p.alone space n).2 := by
  obtain ⟨now, hstep, hstepped⟩ := step_guarded hp hu hr (by omega) hd hs
  obtain ⟨eff, heff, hdone⟩ := hrest now hstepped
  have hrun := run_of_step others ⟨rest + depth, hr, by omega⟩ (fun _ _ h => hp.pid_eq h) hstep
    hstepped.reply
  rw [hrun, heff]
  exact ⟨_, rfl, hdone.reply, hdone.answer, hdone.data, hdone.ready, hdone.shape⟩

/-- A disciplined program that runs undisturbed comes to its end, and it is the end that it comes to
by itself. -/
theorem run_guarded (others : Bystander) (hp : p.Guarded pid space shape stop post depth)
    (hle : depth ≤ 2) (hr : m.locks.Ready pid space (rest + depth))
    (hb : rest + 3 < LockTable.countLimit) (hd : m.SameData n) (hs : shape.SameShape n.memory) :
    ∃ eff, p.run others m = some eff ∧
      Completed pid space shape (rest + stop) post eff (p.alone space n).1
        (p.alone space n).2 := by
  induction p generalizing m n depth with
  | done a =>
    cases hp with
    | done h => exact ⟨_, rfl, rfl, h, hd, hr, hs⟩
  | act action next ih | enter q next ih =>
    obtain ⟨hguarded, hshape⟩ := hp.advance hs
    refine run_of_stepped others hp rfl hr hle hb hd hs fun now h => ?_
    exact ih _ hguarded (hp.depthAfter_le hle) h.ready h.data hshape

end Paging
