import Paging.Proofs.Running

/-!
# Traces

What a program itself does along a run, with the replies it gets: the spaces it enters and the
actions it takes (`Program.trace`). The paths through a program (`Program.Path`) are all the traces
that any replies could lead to, so that what is shown of paths holds whoever moves in between. The
trace of a composed operation is made of those of its parts, up to the first that fails.
-/

namespace Paging

variable {α β : Type}

inductive Performed where
  | entered (pid : Pid) (reply : Except Error SpaceId)
  | acted (action : Action) (reply : action.Reply)

namespace Performed

/-- The words that were read, those included that could not be. -/
def wordsRead (trace : List Performed) : List PhysicalAddress :=
  trace.filterMap fun
    | acted (.readWord a) _ => some a
    | _ => none

/-- The words that were written and not refused. -/
def wordsStored (trace : List Performed) : List PhysicalAddress :=
  trace.filterMap fun
    | acted (.writeWord a _) (.ok ()) => some a
    | _ => none

theorem wordsRead_append (s t : List Performed) : wordsRead (s ++ t) = wordsRead s ++ wordsRead t :=
  List.filterMap_append ..

theorem wordsStored_append (s t : List Performed) :
    wordsStored (s ++ t) = wordsStored s ++ wordsStored t := List.filterMap_append ..

end Performed

namespace Program

variable (others : Bystander)

/-- What the program does while nobody else moves but the bystanders, as far as it gets. -/
def trace : Program α → Machine → List Performed
  | .done _, _ => []
  | .act action next, m =>
    let now := m.perform action
    .acted action now.reply :: trace (next now.reply) now.machine
  | .enter pid next, m =>
    match m.locks.enterAlone others pid with
    | none => []
    | some now => .entered pid now.reply :: trace (next now.reply) { m with locks := now.table }

inductive Path : Program α → List Performed → α → Prop where
  | done (a : α) : Path (.done a) [] a
  | act {action : Action} {next : action.Reply → Program α} {trace : List Performed} {a : α}
      (reply : action.Reply) (h : Path (next reply) trace a) :
      Path (.act action next) (.acted action reply :: trace) a
  | enter {pid : Pid} {next : Except Error SpaceId → Program α} {trace : List Performed} {a : α}
      (reply : Except Error SpaceId) (h : Path (next reply) trace a) :
      Path (.enter pid next) (.entered pid reply :: trace) a

variable {others} {p : Program α} {m : Machine}

theorem path_trace {eff : Effect α} (h : p.run others m = some eff) :
    p.Path (p.trace others m) eff.reply := by
  induction p generalizing m eff with
  | done a =>
    cases h
    exact .done a
  | act action next ih =>
    rw [run_act] at h
    obtain ⟨later, hrun, rfl⟩ := Option.map_eq_some_iff.mp h
    have hpath := ih _ hrun
    exact .act _ hpath
  | enter pid next ih =>
    rw [run_enter] at h
    obtain ⟨now, hen, hlater⟩ := Option.bind_eq_some_iff.mp h
    obtain ⟨later, hrun, rfl⟩ := Option.map_eq_some_iff.mp hlater
    have hpath := ih _ hrun
    rw [trace, hen]
    exact .enter _ hpath

theorem trace_bind {eff : Effect α} (h : p.run others m = some eff) (f : α → Program β) :
    (p.bind f).trace others m = p.trace others m ++ (f eff.reply).trace others eff.machine := by
  induction p generalizing m eff with
  | done a =>
    cases h
    rfl
  | act action next ih =>
    rw [run_act] at h
    obtain ⟨later, hrun, rfl⟩ := Option.map_eq_some_iff.mp h
    have hrest := ih _ hrun
    exact congrArg _ hrest
  | enter pid next ih =>
    rw [run_enter] at h
    obtain ⟨now, hen, hlater⟩ := Option.bind_eq_some_iff.mp h
    obtain ⟨later, hrun, rfl⟩ := Option.map_eq_some_iff.mp hlater
    have hrest := ih _ hrun
    simp only [bind, trace, hen]
    exact congrArg _ hrest

theorem path_bind {f : α → Program β} {trace : List Performed} {b : β}
    (h : (p.bind f).Path trace b) :
    ∃ first a rest, p.Path first a ∧ (f a).Path rest b ∧ trace = first ++ rest := by
  induction p generalizing trace with
  | done a => exact ⟨[], a, trace, .done a, h, rfl⟩
  | act action next ih =>
    cases h with
    | act reply h =>
      obtain ⟨first, a, rest, hfirst, hrest, rfl⟩ := ih reply h
      exact ⟨_, a, rest, .act reply hfirst, hrest, rfl⟩
  | enter pid next ih =>
    cases h with
    | enter reply h =>
      obtain ⟨first, a, rest, hfirst, hrest, rfl⟩ := ih reply h
      exact ⟨_, a, rest, .enter reply hfirst, hrest, rfl⟩

end Program

namespace Op

variable (others : Bystander) {m m' : Machine} {es : List Event}

def traceOn (op : Op α) (m : Machine) : List Performed := op.run.trace others m

theorem traceOn_bind_ok {op : Op α} {a : α} (h : op.runOn others m = some ⟨es, m', .ok a⟩)
    (f : α → Op β) :
    (op >>= f).traceOn others m = op.traceOn others m ++ (f a).traceOn others m' :=
  Program.trace_bind h fun r => ExceptT.bindCont f r

theorem traceOn_bind_error {op : Op α} {err : Error}
    (h : op.runOn others m = some ⟨es, m', .error err⟩) (f : α → Op β) :
    (op >>= f).traceOn others m = op.traceOn others m := by
  have hbind : (op >>= f).traceOn others m = op.traceOn others m ++ [] :=
    Program.trace_bind h fun r => ExceptT.bindCont f r
  rw [hbind, List.append_nil]

/-- Of what becomes of an answer the trace shows nothing. -/
theorem traceOn_bind_pure {op : Op α} {eff : Effect (Except Error α)}
    (h : op.runOn others m = some eff) (f : α → β) :
    (op >>= fun a => Pure.pure (f a)).traceOn others m = op.traceOn others m := by
  obtain ⟨es, m', reply⟩ := eff
  cases reply with
  | error err => exact traceOn_bind_error others h _
  | ok a =>
    rw [traceOn_bind_ok others h]
    exact List.append_nil _

theorem traceOn_map {op : Op α} {f : α → β} {eff : Effect (Except Error β)}
    (h : (f <$> op).runOn others m = some eff) :
    ∃ inner, op.runOn others m = some inner ∧
      (f <$> op).traceOn others m = op.traceOn others m := by
  rw [map_eq_pure_bind, runOn_bind] at h
  obtain ⟨inner, hinner, _⟩ := Option.bind_eq_some_iff.mp h
  rw [map_eq_pure_bind]
  exact ⟨inner, hinner, traceOn_bind_pure others hinner f⟩

theorem traceOn_lift {op : Op α} {eff : Effect (Except Error α)}
    (h : op.runOn others m = some eff) :
    traceOn others (ExceptT.lift op.run) m = op.traceOn others m := by
  have hbind : traceOn others (ExceptT.lift op.run) m = op.traceOn others m ++ [] :=
    Program.trace_bind h fun r => .done (Except.ok r)
  rw [hbind, List.append_nil]

theorem traceOn_act {op : Op α} {a : Action} {g : a.Reply → Except Error α}
    (h : op.run = .act a fun r => .done (g r)) (m : Machine) :
    op.traceOn others m = [.acted a (m.perform a).reply] := by
  rw [traceOn, h]
  rfl

/-! ### Holding a space -/

variable {pid : Pid} {now : Entered}

theorem traceOn_holding_none (body : SpaceId → Op α) (h : m.locks.enterAlone others pid = none) :
    (holding pid body).traceOn others m = [] := by
  show Program.trace others (.enter pid _) m = _
  simp only [Program.trace, h]

theorem traceOn_holding_refused (body : SpaceId → Op α) {err : Error}
    (h : m.locks.enterAlone others pid = some now) (hr : now.reply = .error err) :
    (holding pid body).traceOn others m = [.entered pid (.error err)] := by
  show Program.trace others (.enter pid _) m = _
  simp only [Program.trace, h, hr]

theorem traceOn_holding_granted (body : SpaceId → Op α) {space : SpaceId}
    {eff : Effect (Except Error α)} (h : m.locks.enterAlone others pid = some now)
    (hr : now.reply = .ok space)
    (hbody : (body space).runOn others { m with locks := now.table } = some eff) :
    (holding pid body).traceOn others m =
      .entered pid (.ok space) :: (body space).traceOn others { m with locks := now.table } ++
        [.acted (.release pid) ()] := by
  show Program.trace others (.enter pid _) m = _
  simp only [Program.trace, h, hr]
  exact congrArg _ (Program.trace_bind hbody _)

/-! ### Paths -/

variable {trace : List Performed}

theorem path_bind {op : Op α} {f : α → Op β} {r : Except Error β}
    (h : (op >>= f).run.Path trace r) :
    (∃ err, op.run.Path trace (.error err) ∧ r = .error err) ∨
    ∃ a first rest, op.run.Path first (.ok a) ∧ (f a).run.Path rest r ∧
      trace = first ++ rest := by
  obtain ⟨first, reply, rest, hfirst, hrest, rfl⟩ :=
    Program.path_bind (p := op.run) (f := fun r => ExceptT.bindCont f r) h
  cases reply with
  | error err =>
    cases hrest
    rw [List.append_nil]
    exact .inl ⟨err, hfirst, rfl⟩
  | ok a => exact .inr ⟨a, first, rest, hfirst, hrest, rfl⟩

theorem path_bind_pure {op : Op α} {f : α → β} {r : Except Error β}
    (h : (op >>= fun a => Pure.pure (f a)).run.Path trace r) :
    ∃ result, op.run.Path trace result ∧ r = result.map f := by
  obtain ⟨err, hpath, rfl⟩ | ⟨a, first, rest, hfirst, hrest, rfl⟩ := path_bind h
  · exact ⟨_, hpath, rfl⟩
  · cases hrest
    rw [List.append_nil]
    exact ⟨_, hfirst, rfl⟩

theorem path_lift {op : Op α} {r : Except Error (Except Error α)}
    (h : Program.Path (ExceptT.run (ExceptT.lift op.run)) trace r) :
    ∃ result, op.run.Path trace result ∧ r = .ok result := by
  obtain ⟨first, result, rest, hfirst, hrest, rfl⟩ :=
    Program.path_bind (p := op.run) (f := fun r => .done (Except.ok r)) h
  cases hrest
  rw [List.append_nil]
  exact ⟨result, hfirst, rfl⟩

theorem path_act {op : Op α} {a : Action} {g : a.Reply → Except Error α}
    (hop : op.run = .act a fun r => .done (g r)) {r : Except Error α}
    (h : op.run.Path trace r) : ∃ reply, trace = [.acted a reply] ∧ r = g reply := by
  rw [hop] at h
  cases h with
  | act reply h =>
    cases h
    exact ⟨reply, rfl, rfl⟩

theorem path_holding {body : SpaceId → Op α} {r : Except Error α}
    (h : (holding pid body).run.Path trace r) :
    (∃ err, trace = [.entered pid (.error err)] ∧ r = .error err) ∨
    ∃ space inside, (body space).run.Path inside r ∧
      trace = .entered pid (.ok space) :: inside ++ [.acted (.release pid) ()] := by
  cases h with
  | enter reply h =>
    cases reply with
    | error err =>
      cases h
      exact .inl ⟨err, rfl, rfl⟩
    | ok space =>
      obtain ⟨inside, result, rest, hinside, hrest, rfl⟩ :=
        Program.path_bind (p := (body space).run) h
      cases hrest with
      | act reply hrest =>
        cases hrest
        exact .inr ⟨space, inside, hinside, rfl⟩

end Op

end Paging
