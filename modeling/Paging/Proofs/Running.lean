import Paging.Machine

/-!
# Running operations

How a run of a composed operation is made of the runs of its parts. An operation that answers an
error ends there; otherwise what follows it starts from the machine that it left behind
(`runOn_bind`). Each single action is run by `Machine.perform`.
-/

namespace Paging

variable {α β : Type}

def Effect.after (events : List Event) (e : Effect α) : Effect α :=
  ⟨events ++ e.events, e.machine, e.reply⟩

/-- The effect with one reference to a process given back behind it. -/
def Effect.released (pid : Pid) (e : Effect α) : Effect α :=
  ⟨e.events ++ (e.machine.locks.release pid).1,
    { e.machine with locks := (e.machine.locks.release pid).2 }, e.reply⟩

theorem Effect.after_after (es fs : List Event) (e : Effect α) :
    (e.after fs).after es = e.after (es ++ fs) := by
  simp [after, List.append_assoc]

namespace Program

variable (others : Bystander)

theorem run_done (a : α) (m : Machine) : (done a).run others m = some ⟨[], m, a⟩ := rfl

theorem run_act (action : Action) (next : action.Reply → Program α) (m : Machine) :
    (act action next).run others m =
      ((next (m.perform action).reply).run others (m.perform action).machine).map
        (Effect.after (m.perform action).events) := rfl

theorem run_enter (pid : Pid) (next : Except Error SpaceId → Program α) (m : Machine) :
    (enter pid next).run others m =
      (m.locks.enterAlone others pid).bind fun now =>
        ((next now.reply).run others { m with locks := now.table }).map
          (Effect.after now.events) := rfl

theorem run_bind (p : Program α) (f : α → Program β) (m : Machine) :
    (p.bind f).run others m =
      (p.run others m).bind fun e => ((f e.reply).run others e.machine).map
        (Effect.after e.events) := by
  induction p generalizing m with
  | done a =>
    simp only [bind, run_done, Option.bind_some]
    cases (f a).run others m <;> rfl
  | act action next ih =>
    simp only [bind, run_act, ih, Option.bind_map, Option.map_bind]
    congr 1
    funext e
    simp only [Function.comp, Option.map_map]
    congr 1
    funext e'
    exact Effect.after_after ..
  | enter pid next ih =>
    simp only [bind, run_enter, ih, Option.bind_assoc, Option.bind_map, Option.map_bind]
    congr 1
    funext now
    congr 1
    funext e
    simp only [Function.comp, Option.map_map]
    congr 1
    funext e'
    exact Effect.after_after ..

end Program

namespace Op

variable (others : Bystander)

/-- Runs an operation while nobody else moves but the bystanders; none if it would wait for ever. -/
def runOn (op : Op α) (m : Machine) : Option (Effect (Except Error α)) := op.run.run others m

/-- What follows an operation, given how it ended. -/
def follow (f : α → Op β) (e : Effect (Except Error α)) : Option (Effect (Except Error β)) :=
  match e.reply with
  | .ok a => ((f a).runOn others e.machine).map (Effect.after e.events)
  | .error err => some ⟨e.events, e.machine, .error err⟩

theorem runOn_bind (op : Op α) (f : α → Op β) (m : Machine) :
    (op >>= f).runOn others m = (op.runOn others m).bind (follow others f) := by
  show ((op.run).bind fun r => ExceptT.bindCont f r).run others m = _
  rw [Program.run_bind]
  show _ = (op.run.run others m).bind (follow others f)
  congr 1
  funext e
  obtain ⟨es, m', r⟩ := e
  cases r with
  | ok a => rfl
  | error err => simp [follow, ExceptT.bindCont, pure, Program.run_done, Effect.after]

theorem runOn_bind_ok {op : Op α} {m m' : Machine} {es : List Event} {a : α}
    (h : op.runOn others m = some ⟨es, m', .ok a⟩) (f : α → Op β) :
    (op >>= f).runOn others m = ((f a).runOn others m').map (Effect.after es) := by
  rw [runOn_bind, h]
  rfl

theorem runOn_bind_error {op : Op α} {m m' : Machine} {es : List Event} {err : Error}
    (h : op.runOn others m = some ⟨es, m', .error err⟩) (f : α → Op β) :
    (op >>= f).runOn others m = some ⟨es, m', .error err⟩ := by
  rw [runOn_bind, h]
  rfl

/-- What is made of an answer does not touch the machine. -/
theorem runOn_map (op : Op α) (f : α → β) (m : Machine) :
    (op >>= fun a => pure (f a)).runOn others m =
      (op.runOn others m).map fun eff => ⟨eff.events, eff.machine, eff.reply.map f⟩ := by
  rw [runOn_bind]
  cases h : op.runOn others m with
  | none => rfl
  | some eff =>
    obtain ⟨es, m', r⟩ := eff
    cases r with
    | error err => rfl
    | ok a =>
      show some (Effect.after es ⟨[], m', Except.ok (f a)⟩) = _
      rw [Effect.after, List.append_nil]
      rfl

/-- What follows a result that is there already. -/
theorem runOn_mk_pure_bind (r : Except Error α) (f : α → Op β) (m : Machine) :
    runOn others ((ExceptT.mk (pure r) : Op α) >>= f) m =
      match r with
      | .error err => some ⟨[], m, .error err⟩
      | .ok a => (f a).runOn others m := by
  cases r with
  | error err => rfl
  | ok a => rfl

theorem runOn_note (notice : Notice) (m : Machine) :
    (note notice).runOn others m = some ⟨[.notice notice], m, .ok ()⟩ := rfl

theorem runOn_readRoot (space : SpaceId) (m : Machine) :
    (readRoot space).runOn others m = some ⟨[.readRoot space], m, .ok (m.locks.root space)⟩ := rfl

theorem runOn_flush (vaddr : VirtualAddress) (m : Machine) :
    (flush vaddr).runOn others m = some ⟨[.flush (m.tlb.invalidate vaddr)], m, .ok ()⟩ := rfl

theorem runOn_readWord (address : PhysicalAddress) (m : Machine) :
    (readWord address).runOn others m =
      match m.memory.readWord address with
      | .ok word => some ⟨[.readWord address], m, .ok word⟩
      | .error r => some ⟨.readWord address :: Event.ofNotices r.notices, m, .error r.error⟩ := by
  show (Program.perform (.readWord address)).run others m = _
  rw [Program.perform, Program.run_act]
  cases h : m.memory.readWord address <;>
    simp [Machine.perform, h, Program.run_done, Effect.after]

theorem runOn_writeWord (address : PhysicalAddress) (word : Word) (m : Machine) :
    (writeWord address word).runOn others m =
      match m.memory.writeWord address word with
      | .ok memory => some ⟨[.writeWord address word], { m with memory := memory }, .ok ()⟩
      | .error r =>
        some ⟨.writeWord address word :: Event.ofNotices r.notices, m, .error r.error⟩ := by
  show (Program.perform (.writeWord address word)).run others m = _
  rw [Program.perform, Program.run_act]
  cases h : m.memory.writeWord address word <;>
    simp [Machine.perform, h, Program.run_done, Effect.after]

theorem runOn_lift (op : Op α) (m : Machine) :
    runOn others (ExceptT.lift op.run) m =
      (op.runOn others m).map fun e => ⟨e.events, e.machine, .ok e.reply⟩ := by
  show ((op.run).bind fun r => Program.done (Except.ok r)).run others m = _
  rw [Program.run_bind]
  show (op.runOn others m).bind _ = _
  cases op.runOn others m with
  | none => rfl
  | some e => simp [Program.run_done, Effect.after]

theorem runOn_lift_run {op : Op α} {m m' : Machine} {es : List Event} {r : Except Error α}
    (h : op.runOn others m = some ⟨es, m', r⟩) :
    runOn others (ExceptT.lift op.run) m = some ⟨es, m', .ok r⟩ := by
  rw [runOn_lift, h]
  rfl

/-- An operation that is one action, whatever it makes of the reply. -/
theorem runOn_act {op : Op α} {action : Action} {g : action.Reply → Except Error α}
    (h : op.run = .act action fun r => .done (g r)) (m : Machine) :
    op.runOn others m =
      some ⟨(m.perform action).events, (m.perform action).machine, g (m.perform action).reply⟩ := by
  rw [runOn, h, Program.run_act, Program.run_done, Option.map_some, Effect.after, List.append_nil]

/-! ### Holding a space -/

variable {pid : Pid} {m : Machine} {now : Entered}

theorem runOn_holding_none (body : SpaceId → Op α) (h : m.locks.enterAlone others pid = none) :
    (holding pid body).runOn others m = none := by
  show (Program.enter pid _).run others m = none
  rw [Program.run_enter, h]
  rfl

theorem runOn_holding_refused (body : SpaceId → Op α) {err : Error}
    (h : m.locks.enterAlone others pid = some now) (hr : now.reply = .error err) :
    (holding pid body).runOn others m =
      some ⟨now.events, { m with locks := now.table }, .error err⟩ := by
  show (Program.enter pid _).run others m = _
  rw [Program.run_enter, h, Option.bind_some, hr]
  simp [Program.run_done, Effect.after]

/-- The reference is given back however the body ends. -/
theorem runOn_holding_granted (body : SpaceId → Op α) {space : SpaceId}
    (h : m.locks.enterAlone others pid = some now) (hr : now.reply = .ok space) :
    (holding pid body).runOn others m =
      ((body space).runOn others { m with locks := now.table }).map fun e =>
        (e.released pid).after now.events := by
  show (Program.enter pid _).run others m = _
  rw [Program.run_enter, h, Option.bind_some, hr]
  show Option.map _ (((body space).run.bind fun result =>
    (Program.perform (.release pid)).bind fun _ => Program.done result).run others _) = _
  rw [Program.run_bind, Option.map_bind, Option.map_eq_bind]
  show Option.bind ((body space).runOn others _) _ = Option.bind ((body space).runOn others _) _
  congr 1
  funext e
  simp [Program.perform, Program.bind, Program.run_act, Program.run_done, Machine.perform,
    Effect.after, Effect.released]

end Op

end Paging
