import Paging.Proofs.Discipline

/-!
# Operations that do not see the backing

Over three kinds of backing a physical address is a position in the array and the array can be
written: emulated memory, a window from address zero on and a file that takes writes
(`Backing.Plain`). They differ in how an access is checked, in the notices of a refusal and in that
a file grows. Two machines are alike if they differ in nothing but such a backing, and an operation
is blind if alike machines stay alike under it and answer alike (`Op.Blind`). Aligned words can be
read blindly and words inside can be written blindly, so walks and edits are blind
(`OpLogic.blind`).
-/

namespace Paging

/-- A file must be one that can exist: its positions are less than `2 ^ 63`. -/
def Backing.Plain (n : Nat) : Backing → Prop
  | .emulated _ => True
  | .window base => base = 0
  | .direct _ => False
  | .file mode => mode = .readWrite ∧ n < 2 ^ 63

/-- The notices that a backing leaves of an access it refused. -/
def Notice.isAccessFailure : Notice → Bool
  | readFailed .. | writeFailed .. => true
  | _ => false

namespace Event

/-- What is seen apart from those notices. -/
def common (es : List Event) : List Event :=
  es.filter fun
    | notice n => !n.isAccessFailure
    | _ => true

theorem common_append (es fs : List Event) : common (es ++ fs) = common es ++ common fs :=
  List.filter_append ..

theorem common_ofNotices {ns : List Notice} (h : ∀ n ∈ ns, n.isAccessFailure = true) :
    common (ofNotices ns) = [] := by
  apply List.filter_eq_nil_iff.mpr
  intro ev hev
  obtain ⟨n, hn, rfl⟩ := List.mem_map.mp hev
  simp [h n hn]

end Event

/-! ### Accesses to plain memory -/

namespace Memory

variable {m : Memory} {a : PhysicalAddress} {count : Nat}

theorem inside?_plain (hp : m.backing.Plain m.size) (a : PhysicalAddress) (count : Nat) :
    m.inside? a count = if a.toNat + count ≤ m.size then some a.toNat else none := by
  have hposition : position? m.backing a = some a.toNat := by
    cases hb : m.backing with
    | emulated cursor | file mode => rfl
    | window base =>
      rw [hb] at hp
      cases hp
      simp [position?]
    | direct offset =>
      rw [hb] at hp
      cases hp
  unfold inside?
  rw [hposition, Option.filter_some]
  simp only [decide_eq_true_eq]

theorem misaligned_of_aligned (ha : a.Aligned) : m.misaligned a = false := by
  simp [misaligned, ha.alignedTo]

/-- Why an access was refused shows only in the notices. -/
structure Refused (a : PhysicalAddress) (r : Refusal) : Prop where
  error : r.error = .physicalAccess a
  notices : ∀ n ∈ r.notices, n.isAccessFailure = true

theorem refused_readRefusal (a : PhysicalAddress) (count : Nat) (why : FileFailure) :
    Refused a (readRefusal a count why) where
  error := rfl
  notices n hn := by
    rw [List.mem_singleton.mp hn]
    rfl

theorem beyondFile_eq_false (h : a.toNat + count < 2 ^ 63) : beyondFile a count = false :=
  decide_eq_false (Nat.not_le.mpr h)

theorem readBytes_inside (hp : m.backing.Plain m.size) (hc : count ≠ 0)
    (hin : a.toNat + count ≤ m.size) :
    m.readBytes a count = .ok (Bytes.slice m.bytes a.toNat (a.toNat + count)) := by
  unfold readBytes
  simp only [inside?_plain hp, if_pos hin]
  cases hb : m.backing with
  | emulated cursor | window base | direct offset => rfl
  | file mode =>
    rw [hb] at hp
    obtain ⟨rfl, hs⟩ := hp
    have hstart : beyondFile a 0 = false := beyondFile_eq_false (by omega)
    have hend : beyondFile a count = false := beyondFile_eq_false (by omega)
    have hf : readFailure? .readWrite a count = none := by simp [readFailure?, hstart, hend]
    simp [hc, hf]

theorem readBytes_outside (hp : m.backing.Plain m.size) (hc : count ≠ 0)
    (hout : ¬ a.toNat + count ≤ m.size) : ∃ r, Refused a r ∧ m.readBytes a count = .error r := by
  unfold readBytes
  simp only [inside?_plain hp, if_neg hout]
  cases hb : m.backing with
  | emulated cursor | window base => exact ⟨refusal a, ⟨rfl, nofun⟩, rfl⟩
  | direct offset =>
    rw [hb] at hp
    cases hp
  | file mode =>
    rw [hb] at hp
    obtain ⟨rfl, _⟩ := hp
    simp only [hc, if_false]
    cases hf : readFailure? .readWrite a count with
    | some why => exact ⟨_, refused_readRefusal a count why, rfl⟩
    | none => exact ⟨_, refused_readRefusal a count .endOfFile, rfl⟩

theorem writeBytes_inside (hp : m.backing.Plain m.size) {bs : List UInt8} (hne : bs ≠ [])
    (hin : a.toNat + bs.length ≤ m.size) :
    m.writeBytes a bs = .ok { m with bytes := Bytes.overwrite m.bytes a.toNat bs } := by
  unfold writeBytes
  simp only [inside?_plain hp, if_pos hin]
  cases hb : m.backing with
  | emulated cursor | window base | direct offset => rfl
  | file mode =>
    rw [hb] at hp
    obtain ⟨rfl, hs⟩ := hp
    have hlen : 0 < bs.length := List.length_pos_iff.mpr hne
    have hstart : beyondFile a 0 = false := beyondFile_eq_false (by omega)
    have hend : beyondFile a bs.length = false := beyondFile_eq_false (by omega)
    have hwf : writeFailure? .readWrite a bs.length = none := by
      simp [writeFailure?, hstart, hend, FileMode.takesWrites]
    have hgrow : Bytes.grow m.bytes (a.toNat + bs.length) = m.bytes := grow_of_le hin
    simp [hne, hwf, hgrow]

end Memory

/-! ### Alike machines -/

/-- The same machine up to the backing of `n` bytes. -/
structure Machine.Alike (n : Nat) (m m' : Machine) : Prop where
  locks : m'.locks = m.locks
  tlb : m'.tlb = m.tlb
  register : m'.register = m.register
  bytes : m'.memory.bytes = m.memory.bytes
  size : m.memory.size = n
  plain : m.memory.backing.Plain n
  plain' : m'.memory.backing.Plain n

structure Effect.Alike {α : Type} (n : Nat) (eff eff' : Effect α) : Prop where
  reply : eff'.reply = eff.reply
  events : Event.common eff'.events = Event.common eff.events
  machine : eff.machine.Alike n eff'.machine

namespace Machine.Alike

variable {n : Nat} {m m' : Machine}

theorem size' (h : m.Alike n m') : m'.memory.size = n := by
  rw [← h.size, Memory.size, h.bytes]
  rfl

theorem plainSize (h : m.Alike n m') : m.memory.backing.Plain m.memory.size := by
  rw [h.size]
  exact h.plain

theorem plainSize' (h : m.Alike n m') : m'.memory.backing.Plain m'.memory.size := by
  rw [h.size']
  exact h.plain'

theorem withLocks (h : m.Alike n m') (locks : LockTable) :
    Machine.Alike n { m with locks := locks } { m' with locks := locks } :=
  ⟨rfl, h.tlb, h.register, h.bytes, h.size, h.plain, h.plain'⟩

theorem refused (h : m.Alike n m') (first : Event) {a : PhysicalAddress} {r r' : Refusal}
    (hr : Memory.Refused a r) (hr' : Memory.Refused a r') {α : Type} :
    Effect.Alike n (⟨first :: Event.ofNotices r.notices, m, .error r.error⟩ : Effect (Except Error α))
      ⟨first :: Event.ofNotices r'.notices, m', .error r'.error⟩ where
  reply := congrArg Except.error (hr'.error.trans hr.error.symm)
  events := by
    show Event.common ([first] ++ Event.ofNotices r'.notices) =
      Event.common ([first] ++ Event.ofNotices r.notices)
    rw [Event.common_append, Event.common_append, Event.common_ofNotices hr.notices,
      Event.common_ofNotices hr'.notices]
  machine := h

theorem readBytes (h : m.Alike n m') (a : PhysicalAddress)
    {count : Nat} (hc : count ≠ 0) :
    Effect.Alike n (m.perform (.readBytes a count)) (m'.perform (.readBytes a count)) := by
  have hs := h.size
  have hs' := h.size'
  by_cases hin : a.toNat + count ≤ n
  · have hread := Memory.readBytes_inside (a := a) h.plainSize hc (by omega)
    have hread' := Memory.readBytes_inside (a := a) h.plainSize' hc (by omega)
    rw [h.bytes] at hread'
    simp only [Machine.perform, hread, hread']
    exact ⟨rfl, rfl, h⟩
  · obtain ⟨r, hr, hread⟩ := Memory.readBytes_outside (a := a) h.plainSize hc (by omega)
    obtain ⟨r', hr', hread'⟩ := Memory.readBytes_outside (a := a) h.plainSize' hc (by omega)
    simp only [Machine.perform, hread, hread']
    exact h.refused _ hr hr'

theorem readWord (h : m.Alike n m') {a : PhysicalAddress}
    (ha : a.Aligned) :
    Effect.Alike n (m.perform (.readWord a)) (m'.perform (.readWord a)) ∧
      ∀ w, (m.perform (.readWord a)).reply = .ok w → a.toNat + 8 ≤ n := by
  have hs := h.size
  have hs' := h.size'
  have h8 : 8 ≠ 0 := by decide
  by_cases hin : a.toNat + 8 ≤ n
  · have hread := Memory.readBytes_inside (a := a) h.plainSize h8 (by omega)
    have hread' := Memory.readBytes_inside (a := a) h.plainSize' h8 (by omega)
    rw [h.bytes] at hread'
    simp only [Machine.perform, Memory.readWord, Memory.misaligned_of_aligned ha, hread, hread']
    exact ⟨⟨rfl, rfl, h⟩, fun _ _ => hin⟩
  · obtain ⟨r, hr, hread⟩ := Memory.readBytes_outside (a := a) h.plainSize h8 (by omega)
    obtain ⟨r', hr', hread'⟩ := Memory.readBytes_outside (a := a) h.plainSize' h8 (by omega)
    simp only [Machine.perform, Memory.readWord, Memory.misaligned_of_aligned ha, hread, hread']
    exact ⟨h.refused _ hr hr', fun _ hok => by cases hok⟩

theorem overwritten (h : m.Alike n m') (start : Nat) (bs : List UInt8) :
    Machine.Alike n
      { m with memory := { m.memory with bytes := Bytes.overwrite m.memory.bytes start bs } }
      { m' with memory := { m'.memory with bytes := Bytes.overwrite m'.memory.bytes start bs } } :=
  ⟨h.locks, h.tlb, h.register, by rw [h.bytes],
    (Bytes.size_overwrite ..).trans h.size, h.plain, h.plain'⟩

theorem writeBytes (h : m.Alike n m') {a : PhysicalAddress}
    {bs : List UInt8} (hne : bs ≠ []) (hin : a.toNat + bs.length ≤ n) :
    Effect.Alike n (m.perform (.writeBytes a bs)) (m'.perform (.writeBytes a bs)) := by
  have hs := h.size
  have hs' := h.size'
  have hw := Memory.writeBytes_inside (a := a) h.plainSize hne (by omega)
  have hw' := Memory.writeBytes_inside (a := a) h.plainSize' hne (by omega)
  simp only [Machine.perform, hw, hw']
  exact ⟨rfl, rfl, h.overwritten a.toNat bs⟩

theorem writeWord (h : m.Alike n m') {a : PhysicalAddress} (w : Word)
    (ha : a.Aligned) (hin : a.toNat + 8 ≤ n) :
    Effect.Alike n (m.perform (.writeWord a w)) (m'.perform (.writeWord a w)) := by
  have hs := h.size
  have hs' := h.size'
  have hlen := Bytes.length_ofWord w
  have hne : Bytes.ofWord w ≠ [] := List.ne_nil_of_length_pos (by omega)
  have hw := Memory.writeBytes_inside (a := a) h.plainSize hne (by omega)
  have hw' := Memory.writeBytes_inside (a := a) h.plainSize' hne (by omega)
  simp only [Machine.perform, Memory.writeWord, Memory.misaligned_of_aligned ha, hw, hw']
  exact ⟨rfl, rfl, h.overwritten a.toNat _⟩

end Machine.Alike

/-- No action but an access to memory depends on the backing. -/
def Action.isAccess : Action → Bool
  | .readWord _ | .writeWord _ _ | .readBytes _ _ | .writeBytes _ _ => true
  | _ => false

theorem Machine.Alike.perform {n : Nat} {m m' : Machine} (h : m.Alike n m') {action : Action}
    (ha : action.isAccess = false) :
    Effect.Alike n (m.perform action) (m'.perform action) := by
  obtain ⟨locks, memory, tlb, register⟩ := m
  obtain ⟨locks', memory', tlb', register'⟩ := m'
  obtain ⟨hl, ht, hr, hb, hs, hp, hp'⟩ := h
  dsimp only at hl ht hr hb hs hp hp'
  subst hl ht hr
  cases action with
  | readWord a | writeWord a w | readBytes a c | writeBytes a bs => cases ha
  | switchStrategy id =>
    simp only [Machine.perform]
    split <;> exact ⟨rfl, rfl, rfl, rfl, rfl, hb, hs, hp, hp'⟩
  | release pid | readRoot s | setRoot s root | flush v | strategy | readRegister
  | writeRegister v | note k => exact ⟨rfl, rfl, rfl, rfl, rfl, hb, hs, hp, hp'⟩

variable {α β : Type}

/-- From alike machines the operation ends in alike ones, or nowhere on both. -/
def Op.Blind (n : Nat) (P : α → Prop) (op : Op α) : Prop :=
  ∀ (others : Bystander) (m m' : Machine), m.Alike n m' →
    (op.runOn others m = none ∧ op.runOn others m' = none) ∨
    ∃ eff eff', op.runOn others m = some eff ∧ op.runOn others m' = some eff' ∧
      eff.Alike n eff' ∧ ∀ a, eff.reply = .ok a → P a

namespace Op.Blind

variable {n : Nat} {P : α → Prop} {Q : β → Prop}

theorem mk_pure (r : Except Error α) : Blind n (fun a => r = .ok a) (ExceptT.mk (Pure.pure r)) :=
  fun _ _ _ h => .inr ⟨_, _, rfl, rfl, ⟨rfl, rfl, h⟩, fun _ ha => ha⟩

theorem pure {a : α} (h : P a) : Blind n P (pure a) := by
  intro others m m' hm
  refine .inr ⟨_, _, rfl, rfl, ⟨rfl, rfl, hm⟩, fun b hb => ?_⟩
  cases hb
  exact h

theorem mono {P' : α → Prop} {op : Op α} (h : Blind n P op) (hp : ∀ a, P a → P' a) :
    Blind n P' op := by
  intro others m m' hm
  obtain hnone | ⟨eff, eff', hrun, hrun', hsame, hpost⟩ := h others m m' hm
  · exact .inl hnone
  · exact .inr ⟨eff, eff', hrun, hrun', hsame, fun a ha => hp a (hpost a ha)⟩

theorem throw (err : Error) : Blind n P (MonadExcept.throw err : Op α) :=
  fun _ _ _ hm => .inr ⟨_, _, rfl, rfl, ⟨rfl, rfl, hm⟩, nofun⟩

theorem bind {op : Op α} {f : α → Op β} (h : Blind n P op) (hf : ∀ a, P a → Blind n Q (f a)) :
    Blind n Q (op >>= f) := by
  intro others m m' hm
  obtain ⟨hrun, hrun'⟩ | ⟨⟨es, after, reply⟩, ⟨es', after', reply'⟩, hrun, hrun', hsame, hpost⟩ :=
    h others m m' hm
  · left
    rw [runOn_bind, runOn_bind, hrun, hrun']
    exact ⟨rfl, rfl⟩
  · obtain ⟨hreply, hevents, hmachine⟩ := hsame
    dsimp only at hreply hevents hmachine hpost
    subst hreply
    cases reply' with
    | error err =>
      exact .inr ⟨_, _, runOn_bind_error others hrun f, runOn_bind_error others hrun' f,
        ⟨rfl, hevents, hmachine⟩, nofun⟩
    | ok a =>
      rw [runOn_bind_ok others hrun f, runOn_bind_ok others hrun' f]
      obtain ⟨hnext, hnext'⟩ | ⟨eff, eff', hnext, hnext', hsame, hpost'⟩ :=
        hf a (hpost a rfl) others after after' hmachine
      · left
        rw [hnext, hnext']
        exact ⟨rfl, rfl⟩
      · right
        refine ⟨eff.after es, eff'.after es', ?_, ?_, ⟨hsame.reply, ?_, hsame.machine⟩, hpost'⟩
        · rw [hnext]
          rfl
        · rw [hnext']
          rfl
        · show Event.common (es' ++ _) = Event.common (es ++ _)
          rw [Event.common_append, Event.common_append, hevents, hsame.events]

theorem answer {op : Op α} (h : Blind n P op) (f : α → β) :
    Blind n (fun _ => True) (op >>= fun a => Pure.pure (f a)) :=
  h.bind fun _ _ => .pure trivial

theorem map {op : Op α} (h : Blind n P op) (f : α → β) : Blind n (fun _ => True) (f <$> op) := by
  rw [map_eq_pure_bind]
  exact h.answer f

theorem lift_run {op : Op α} (h : Blind n P op) :
    Blind n (fun r => ∀ a, r = .ok a → P a) (ExceptT.lift op.run) := by
  intro others m m' hm
  obtain ⟨hrun, hrun'⟩ | ⟨⟨es, after, reply⟩, ⟨es', after', reply'⟩, hrun, hrun', hsame, hpost⟩ :=
    h others m m' hm
  · left
    rw [runOn_lift, runOn_lift, hrun, hrun']
    exact ⟨rfl, rfl⟩
  · refine .inr ⟨_, _, runOn_lift_run others hrun, runOn_lift_run others hrun',
      ⟨congrArg Except.ok hsame.reply, hsame.events, hsame.machine⟩, fun r hr => ?_⟩
    cases hr
    exact hpost

theorem act {op : Op α} (action : Action) (g : action.Reply → Except Error α)
    (h : op.run = .act action fun r => .done (g r))
    (ha : ∀ m m' : Machine, m.Alike n m' →
      Effect.Alike n (m.perform action) (m'.perform action) ∧
        ∀ a, g (m.perform action).reply = .ok a → P a) :
    Blind n P op := by
  intro others m m' hm
  obtain ⟨hsame, hpost⟩ := ha m m' hm
  exact .inr ⟨_, _, runOn_act others h m, runOn_act others h m',
    ⟨congrArg g hsame.reply, hsame.events, hsame.machine⟩, hpost⟩

theorem plain {op : Op α} (action : Action) (g : action.Reply → Except Error α)
    (h : op.run = .act action fun r => .done (g r)) (ha : action.isAccess = false) :
    Blind n (fun _ => True) op :=
  act action g h fun _ _ hm => ⟨hm.perform ha, fun _ _ => trivial⟩

theorem acquire (pid : Pid) : Blind n (fun _ => True) (Op.acquire pid) := by
  intro others m m' hm
  have hrun : ∀ m : Machine, (Op.acquire pid).runOn others m =
      (m.locks.enterAlone others pid).map fun now =>
        ⟨now.events ++ [], { m with locks := now.table }, now.reply⟩ := by
    intro m
    show (Program.enter pid Program.done).run others m = _
    rw [Program.run_enter]
    cases m.locks.enterAlone others pid <;> rfl
  rw [hrun, hrun, hm.locks]
  cases m.locks.enterAlone others pid with
  | none => exact .inl ⟨rfl, rfl⟩
  | some now =>
    exact .inr ⟨_, _, rfl, rfl, ⟨rfl, rfl, hm.withLocks now.table⟩, fun _ _ => trivial⟩

theorem holding {pid : Pid} {body : SpaceId → Op α} (h : ∀ s, Blind n P (body s)) :
    Blind n P (Op.holding pid body) := by
  intro others m m' hm
  cases hen : m.locks.enterAlone others pid with
  | none =>
    exact .inl ⟨runOn_holding_none others body hen,
      runOn_holding_none others body (by rw [hm.locks]; exact hen)⟩
  | some now =>
    have hen' : m'.locks.enterAlone others pid = some now := by rw [hm.locks]; exact hen
    cases hr : now.reply with
    | error err =>
      exact .inr ⟨_, _, runOn_holding_refused others body hen hr,
        runOn_holding_refused others body hen' hr, ⟨rfl, rfl, hm.withLocks now.table⟩, nofun⟩
    | ok s =>
      rw [runOn_holding_granted others body hen hr, runOn_holding_granted others body hen' hr]
      obtain ⟨hrun, hrun'⟩ | ⟨eff, eff', hrun, hrun', hsame, hpost⟩ :=
        h s others _ _ (hm.withLocks now.table)
      · left
        rw [hrun, hrun']
        exact ⟨rfl, rfl⟩
      · have hlocks := hsame.machine.locks
        rw [hrun, hrun']
        refine .inr ⟨_, _, rfl, rfl, ⟨hsame.reply, ?_, ?_⟩, hpost⟩
        · simp only [Effect.after, Effect.released, Event.common_append, hlocks, hsame.events]
        · simp only [Effect.after, Effect.released, hlocks]
          exact hsame.machine.withLocks _

end Op.Blind

def OpLogic.blind (n : Nat) (pid : Pid) : OpLogic pid where
  Holds _ P op := op.Blind n P
  Granted _ := True
  Read a := a.toNat + 8 ≤ n
  pure := Op.Blind.pure
  bind := Op.Blind.bind
  liftRun := Op.Blind.lift_run
  mkPure r := (Op.Blind.mk_pure r).mono fun _ _ => trivial
  holding _ h := Op.Blind.holding fun s => h s trivial
  note k := Op.Blind.plain (.note k) .ok rfl rfl
  flush v := Op.Blind.plain (.flush v) .ok rfl rfl
  readRoot {_ s} _ := Op.Blind.plain (.readRoot s) .ok rfl rfl
  setRoot {_ s} root _ := Op.Blind.plain (.setRoot s root) .ok rfl rfl
  readWord {_ a} ha := Op.Blind.act (.readWord a) id rfl fun _ _ hm => hm.readWord ha
  writeWord {_ a} w ha hin := Op.Blind.act (.writeWord a w) id rfl fun _ _ hm =>
    ⟨hm.writeWord w ha hin, fun _ _ => trivial⟩

end Paging
