import Paging.Proofs.Backends
import Paging.Proofs.Courses

/-!
# Invalidations

An edit invalidates its address once, when it has come through its walk, and otherwise not at all;
of everything else that an engine does only the request for it invalidates. The invalidations seen
over a sequence of calls are therefore those of such edits and requests, in the order of the calls
and each with the strategy active by then (`Engine.flush_discipline`).
-/

namespace Paging

variable {α : Type}

/-- Bystanders that do not invalidate anything themselves. -/
def Bystander.Quiet (others : Bystander) : Prop :=
  ∀ pid s t, Event.flushes (others pid s t).1 = []

theorem Bystander.quiet_yielding : yielding.Quiet := fun _ _ _ => rfl

namespace Event

theorem flushes_append (es fs : List Event) : flushes (es ++ fs) = flushes es ++ flushes fs :=
  List.filterMap_append ..

theorem flushes_ofNotices (ns : List Notice) : flushes (ofNotices ns) = [] := by
  induction ns with
  | nil => rfl
  | cons n ns ih => exact ih

end Event

/-! ### Invalidations of a trace -/

/-- The strategy is the new one after a switch that succeeds. -/
def TlbControl.afterSwitch (t : TlbControl) (id : UInt8) : TlbControl :=
  match t.switch id with
  | .ok (_, t') => t'
  | .error _ => t

namespace Performed

/-- What the invalidations of a trace call, each under the strategy active at its time. -/
def flushCalls : TlbControl → List Performed → List FlushCall
  | _, [] => []
  | t, .acted (.flush vaddr) _ :: rest => t.invalidate vaddr :: flushCalls t rest
  | t, .acted (.switchStrategy id) _ :: rest => flushCalls (t.afterSwitch id) rest
  | t, _ :: rest => flushCalls t rest

theorem flushCalls_entered (t : TlbControl) (pid : Pid) (reply : Except Error SpaceId)
    (rest : List Performed) : flushCalls t (.entered pid reply :: rest) = flushCalls t rest := rfl

theorem flushCalls_of_isLook (t : TlbControl) {s : List Performed} (rest : List Performed)
    (h : ∀ x ∈ s, x.isLook = true ∨ x.isStore = true) :
    flushCalls t (s ++ rest) = flushCalls t rest := by
  induction s with
  | nil => rfl
  | cons x s ih =>
    have hrest := ih fun y hy => h y (List.mem_cons_of_mem _ hy)
    have hx := h x (List.mem_cons_self ..)
    cases x with
    | entered pid reply => exact hrest
    | acted action reply => cases action <;> first | exact hrest | simp [isLook, isStore] at hx

theorem flushCalls_eq_nil (t : TlbControl) {s : List Performed}
    (h : ∀ x ∈ s, (!x.isFlush) = true) : flushCalls t s = [] := by
  induction s generalizing t with
  | nil => rfl
  | cons x s ih =>
    have hrest := fun t => ih t fun y hy => h y (List.mem_cons_of_mem _ hy)
    have hx := h x (List.mem_cons_self ..)
    cases x with
    | entered pid reply => exact hrest t
    | acted action reply => cases action <;> first | exact hrest _ | simp [isFlush] at hx

end Performed

theorem LockTable.flushes_enterAlone {others : Bystander} (hq : others.Quiet) {t : LockTable}
    {pid : Pid} {now : Entered} (h : t.enterAlone others pid = some now) :
    Event.flushes now.events = [] := by
  have hstart : Event.flushes (t.start pid).events = [] := by
    have hst := started t pid
    generalize t.start pid = out at hst
    cases hst <;> rfl
  obtain ⟨s, _, rfl⟩ | ⟨err, _, rfl⟩ | ⟨s, gate, _, _, rfl⟩ := enterAlone_cases h
  · exact hstart
  · exact hstart
  · rw [Event.flushes_append, hstart, hq]
    rfl

theorem LockTable.flushes_release (t : LockTable) (pid : Pid) :
    Event.flushes (t.release pid).1 = [] := by
  have hr := released t pid
  generalize t.release pid = out at hr
  cases hr <;> rfl

theorem Machine.flushes_perform (m : Machine) (action : Action) (rest : List Performed) :
    Performed.flushCalls m.tlb (.acted action (m.perform action).reply :: rest) =
      Event.flushes (m.perform action).events ++
        Performed.flushCalls (m.perform action).machine.tlb rest := by
  have hrefused : ∀ (first : Event) (ns : List Notice), Event.flushes [first] = [] →
      Event.flushes (first :: Event.ofNotices ns) = [] := by
    intro first ns hfirst
    rw [← List.singleton_append, Event.flushes_append, hfirst, Event.flushes_ofNotices]
    rfl
  cases action with
  | release pid =>
    show Performed.flushCalls m.tlb rest = Event.flushes (m.locks.release pid).1 ++ _
    rw [LockTable.flushes_release]
    rfl
  | readWord a | writeWord a w | readBytes a n | writeBytes a bs =>
    simp only [perform, Performed.flushCalls]
    split
    · rfl
    · rw [hrefused _ _ rfl]
      rfl
  | switchStrategy id =>
    cases hs : m.tlb.switch id with
    | ok switched => simp only [perform, Performed.flushCalls, TlbControl.afterSwitch, hs]; rfl
    | error r =>
      simp only [perform, Performed.flushCalls, TlbControl.afterSwitch, hs,
        Event.flushes_ofNotices, List.nil_append]
  | readRoot s | setRoot s root | flush v | strategy | readRegister | writeRegister v
  | note n => rfl

theorem Program.flushes_run {others : Bystander} (hq : others.Quiet) {p : Program α} {m : Machine}
    {eff : Effect α} (h : p.run others m = some eff) :
    Event.flushes eff.events = Performed.flushCalls m.tlb (p.trace others m) := by
  induction p generalizing m eff with
  | done a =>
    cases h
    rfl
  | act action next ih =>
    rw [run_act] at h
    obtain ⟨later, hrun, rfl⟩ := Option.map_eq_some_iff.mp h
    show Event.flushes (_ ++ later.events) = _
    rw [Event.flushes_append, ih _ hrun]
    exact (m.flushes_perform action _).symm
  | enter pid next ih =>
    rw [run_enter] at h
    obtain ⟨now, hen, hmap⟩ := Option.bind_eq_some_iff.mp h
    obtain ⟨later, hrun, rfl⟩ := Option.map_eq_some_iff.mp hmap
    show Event.flushes (now.events ++ later.events) = _
    rw [Event.flushes_append, LockTable.flushes_enterAlone hq hen, ih _ hrun]
    simp only [trace, hen]
    rfl

/-! ### Edits -/

namespace Engine

variable (e : Engine) (others : Bystander) (vaddr : VirtualAddress) (pid : Pid) (m : Machine)

/-- The process can be entered for an edit, and the walk inside succeeds. -/
def walks : Bool :=
  match (Op.holding pid fun _ => e.walk vaddr pid).runOn others m with
  | some ⟨_, _, .ok _⟩ => true
  | _ => false

variable {e others vaddr pid m}

/-- Where the walk comes through, writing ends in any case and the invalidation comes after it. -/
theorem trace_stored (e : Engine) (others : Bystander) (vaddr : VirtualAddress)
    (visits : List Visit) (mask : LevelMask) (patchFor : Level → EntryPatch) (m : Machine) :
    ∃ eff, Op.runOn others
        (ExceptT.lift (e.writeLevels visits mask patchFor Level.all .none).run >>= fun result =>
          Op.flush vaddr >>= fun _ => ExceptT.mk (pure result)) m = some eff ∧
      Op.traceOn others
        (ExceptT.lift (e.writeLevels visits mask patchFor Level.all .none).run >>= fun result =>
          Op.flush vaddr >>= fun _ => ExceptT.mk (pure result)) m =
        (e.writeLevels visits mask patchFor Level.all .none).traceOn others m ++
          [.acted (.flush vaddr) ()] := by
  obtain ⟨es, hwrite⟩ := e.runOn_writeLevels others visits mask patchFor Level.all .none m
  have hlift := Op.runOn_lift_run others hwrite
  rw [Op.runOn_bind_ok others hlift, Op.runOn_bind_ok others (Op.runOn_flush others vaddr _),
    Op.traceOn_bind_ok others hlift, Op.traceOn_lift others hwrite,
    Op.traceOn_bind_ok others (Op.runOn_flush others vaddr _)]
  exact ⟨_, rfl, rfl⟩

/-- Of what an edit does inside its space the invalidation depends on the walk alone. -/
theorem flushCalls_editInside {mask : LevelMask} {patchFor : Level → EntryPatch}
    {es : List Event} {m' : Machine} {reply : Except Error (List Visit)}
    (hw : (e.walk vaddr pid).runOn others m = some ⟨es, m', reply⟩) (t : TlbControl) :
    Performed.flushCalls t (Op.traceOn others (e.walk vaddr pid >>= fun visits =>
        ExceptT.lift (e.writeLevels visits mask patchFor Level.all .none).run >>= fun result =>
          Op.flush vaddr >>= fun _ => ExceptT.mk (pure result)) m ++
        [.acted (.release pid) ()]) =
      if reply.isOk then [t.invalidate vaddr] else [] := by
  have hlook : ∀ x ∈ (e.walk vaddr pid).traceOn others m, x.isLook = true ∨ x.isStore = true :=
    fun x hx => .inl (e.only_walk vaddr pid _ _ (Program.path_trace hw) x hx)
  cases reply with
  | error err =>
    rw [Op.traceOn_bind_error others hw, Performed.flushCalls_of_isLook t _ hlook]
    rfl
  | ok visits =>
    obtain ⟨es', hwrite⟩ := e.runOn_writeLevels others visits mask patchFor Level.all .none m'
    obtain ⟨stored, _, htrace⟩ := trace_stored e others vaddr visits mask patchFor m'
    have hstore : ∀ x ∈ (e.writeLevels visits mask patchFor Level.all .none).traceOn others m',
        x.isLook = true ∨ x.isStore = true := fun x hx =>
      .inr (e.only_writeLevels _ _ _ _ _ _ _ (Program.path_trace hwrite) x hx)
    rw [Op.traceOn_bind_ok others hw, htrace, List.append_assoc, List.append_assoc,
      Performed.flushCalls_of_isLook t _ hlook, Performed.flushCalls_of_isLook t _ hstore]
    rfl

theorem flushCalls_edit {mask : LevelMask} {patchFor : Level → EntryPatch}
    {eff : Effect (Except Error LevelMask)}
    (h : (e.edit vaddr pid mask patchFor).runOn others m = some eff) (t : TlbControl) :
    Performed.flushCalls t ((e.edit vaddr pid mask patchFor).traceOn others m) =
      if e.walks others vaddr pid m then [t.invalidate vaddr] else [] := by
  cases hen : m.locks.enterAlone others pid with
  | none =>
    have hrun : (e.edit vaddr pid mask patchFor).runOn others m = none :=
      Op.runOn_holding_none others _ hen
    rw [hrun] at h
    cases h
  | some now =>
    obtain ⟨events, held, reply⟩ := now
    cases reply with
    | error err =>
      have htrace : (e.edit vaddr pid mask patchFor).traceOn others m = _ :=
        Op.traceOn_holding_refused others _ hen rfl
      rw [htrace, walks, Op.runOn_holding_refused others _ hen rfl]
      rfl
    | ok space =>
      have hwalks := Op.runOn_holding_granted others (fun _ => e.walk vaddr pid) hen rfl
      have hrun : (e.edit vaddr pid mask patchFor).runOn others m = _ := runOn_edit_granted hen
      rw [hrun] at h
      obtain ⟨inside, hinside, _⟩ := Option.map_eq_some_iff.mp h
      have htrace : (e.edit vaddr pid mask patchFor).traceOn others m = _ :=
        Op.traceOn_holding_granted others _ hen rfl hinside
      rw [Op.runOn_bind] at hinside
      obtain ⟨⟨es, m', reply⟩, hw, _⟩ := Option.bind_eq_some_iff.mp hinside
      rw [htrace, List.cons_append, Performed.flushCalls_entered, flushCalls_editInside hw, walks,
        hwalks, hw]
      cases reply <;> rfl

end Engine

/-! ### Everything else -/

/-- The operation never invalidates anything. -/
abbrev Op.Unflushed (op : Op α) : Prop := op.Only fun x => !x.isFlush

namespace Engine

variable (e : Engine)

theorem unflushed_refuse (r : Refusal) : (Op.refuse r : Op α).Unflushed := by
  have hnotes : ∀ ns : List Notice, (ns.forM Op.note).Unflushed := by
    intro ns
    induction ns with
    | nil => exact .pure ()
    | cons n ns ih => exact (Op.Only.note rfl).bind fun _ => ih
  exact (hnotes r.notices).bind fun _ => .mk_pure (.error r.error)

theorem unflushed_memoryTypes : e.memoryTypes.Unflushed := by
  have hread : Op.readRegister.Unflushed := .act .readRegister .ok rfl fun _ => rfl
  refine hread.bind fun value => ?_
  cases value with
  | some value => exact .pure value
  | none => exact unflushed_refuse _

theorem unflushed_setMemoryTypes (value : Word) : (e.setMemoryTypes value).Unflushed :=
  e.unflushed_memoryTypes.bind fun _ => .act (.writeRegister value) .ok rfl fun _ => rfl

theorem unflushed_memoryTypeTable : e.memoryTypeTable.Unflushed := by
  have htable : ∀ value, (Op.ofExcept (MemoryTypeTable.ofRegister e.arch value)).Unflushed := by
    intro value
    unfold Op.ofExcept
    split
    · exact .pure _
    · exact unflushed_refuse _
  unfold memoryTypeTable
  split
  · exact htable 0
  · exact e.unflushed_memoryTypes.bind fun value => htable value

theorem unflushed_readPage (pfn : Word) (count : Nat) : (e.readPage pfn count).Unflushed :=
  (Op.Only.mk_pure _).bind fun address => .act (.readBytes address count) id rfl fun _ => rfl

theorem unflushed_writePage (pfn : Word) (bytes : List UInt8) :
    (e.writePage pfn bytes).Unflushed :=
  (Op.Only.mk_pure _).bind fun address => .act (.writeBytes address bytes) id rfl fun _ => rfl

theorem unflushed_resolve (vaddr : VirtualAddress) (pid : Pid) :
    (e.resolve vaddr pid).Unflushed := by
  have hwalk : (e.walk vaddr pid).Unflushed := by
    refine (e.only_walk vaddr pid).mono fun x hx => ?_
    rw [(Performed.of_isLook hx).1]
    rfl
  exact hwalk.bind fun _ => .pure _

theorem unflushed_pagingRoot (pid : Pid) : (pagingRoot pid).Unflushed :=
  .holding (fun _ => rfl) rfl fun _ => .readRoot fun _ => rfl

theorem unflushed_setPagingRoot (pid : Pid) (root : PhysicalAddress) :
    (setPagingRoot pid root).Unflushed := by
  refine .holding (fun _ => rfl) rfl fun s => ?_
  exact (Op.Only.note rfl).bind fun _ => .act (.setRoot s root) .ok rfl fun _ => rfl

theorem unflushed_barrier (pid : Pid) : (barrier pid).Unflushed := by
  refine .holding (fun _ => rfl) rfl fun s => ?_
  exact (Op.Only.readRoot fun _ => rfl).bind fun root => .act (.setRoot s root) .ok rfl fun _ => rfl

theorem unflushed_switchStrategy (number : UInt8) : (Op.switchStrategy number).Unflushed :=
  .act (.switchStrategy number) (fun r => r) rfl fun _ => rfl

theorem unflushed_acquire (pid : Pid) : (Op.acquire pid).Unflushed := by
  intro trace r hpath x hx
  cases hpath with
  | enter reply h =>
    cases h
    rw [List.mem_singleton.mp hx]
    rfl

end Engine

def Request.invalidates : Request → Bool
  | update _ _ _ _ | invalidateTlb _ => true
  | _ => false

namespace Call

/-- The addresses that a call invalidates, given the machine that it finds: those of edits that come
through their walk, and those that it is asked to invalidate. -/
def flushed (others : Bystander) (e : Engine) (m : Machine) : Call → List VirtualAddress
  | flush vaddr | dispatch (.invalidateTlb vaddr) => [vaddr]
  | space (.edit (.entries _ vaddr)) pid | dispatch (.update vaddr pid _ _) =>
    if e.walks others vaddr pid m then [vaddr] else []
  | _ => []

variable {others : Bystander} {e : Engine} {m : Machine}

theorem flushCalls_of_unflushed {op : Op α} (hop : op.Unflushed)
    {eff : Effect (Except Error α)} (h : op.runOn others m = some eff) (t : TlbControl) :
    Performed.flushCalls t (op.traceOn others m) = [] :=
  Performed.flushCalls_eq_nil t fun x hx => hop _ _ (Program.path_trace h) x hx

theorem unflushed_answer {request : Request} (h : request.invalidates = false) :
    (e.answer request).Unflushed := by
  cases request with
  | resolve vaddr pid => exact (e.unflushed_resolve vaddr pid).bind fun _ => .pure _
  | update vaddr pid values mask => cases h
  | getRoot pid => exact (Engine.unflushed_pagingRoot pid).bind fun _ => .pure _
  | setRoot pid root => exact (Engine.unflushed_setPagingRoot pid root).bind fun _ => .pure _
  | readPage pfn => exact (e.unflushed_readPage pfn _).bind fun _ => .pure _
  | writePage pfn data => exact (e.unflushed_writePage pfn data).bind fun _ => .pure _
  | pageSize => exact .pure _
  | invalidateTlb vaddr => cases h
  | switchTlb number => exact (Engine.unflushed_switchStrategy number).bind fun _ => .pure _
  | getMemoryTypes => exact e.unflushed_memoryTypes.bind fun _ => .pure _
  | setMemoryTypes value => exact (e.unflushed_setMemoryTypes value).bind fun _ => .pure _
  | lock pid =>
    exact ((Engine.unflushed_acquire pid).bind fun _ => .pure _).bind fun _ => .pure _
  | unlock pid =>
    have hrelease : (Op.release pid).Unflushed := .act (.release pid) .ok rfl fun _ => rfl
    exact hrelease.bind fun _ => .pure _

theorem flushCalls_entries {d : EntryEdit} {v : VirtualAddress} {pid : Pid}
    {eff : Effect (Except Error EditReport)}
    (h : (d.perform e v pid).runOn others m = some eff) (t : TlbControl) :
    Performed.flushCalls t ((d.perform e v pid).traceOn others m) =
      if e.walks others v pid m then [t.invalidate v] else [] := by
  rw [EntryEdit.perform_eq, Op.runOn_bind] at h
  obtain ⟨inner, hedit, _⟩ := Option.bind_eq_some_iff.mp h
  rw [EntryEdit.perform_eq, Op.traceOn_bind_pure others hedit]
  exact Engine.flushCalls_edit hedit t

theorem flushCalls_spaceCall {c : SpaceCall} {pid : Pid} {eff : Effect (Except Error SpaceAnswer)}
    (h : (c.perform e pid).runOn others m = some eff) :
    Performed.flushCalls m.tlb ((c.perform e pid).traceOn others m) =
      ((space c pid).flushed others e m).map m.tlb.invalidate := by
  have hnone : (c.perform e pid).Unflushed → Performed.flushCalls m.tlb
      ((c.perform e pid).traceOn others m) = [] := fun hop => flushCalls_of_unflushed hop h m.tlb
  cases c with
  | resolve vaddr => exact hnone ((e.unflushed_resolve vaddr pid).map _)
  | lastBit vaddr b =>
    exact hnone (((e.unflushed_resolve vaddr pid).bind fun _ => .pure _).map _)
  | lastPfn vaddr => exact hnone (((e.unflushed_resolve vaddr pid).bind fun _ => .pure _).map _)
  | pagingRoot => exact hnone ((Engine.unflushed_pagingRoot pid).map _)
  | edit d =>
    cases d with
    | setRoot root => exact hnone (((Engine.unflushed_setPagingRoot pid root).map _).map _)
    | barrier => exact hnone (((Engine.unflushed_barrier pid).map _).map _)
    | entries d v =>
      have hperform : (SpaceCall.edit (.entries d v)).perform e pid =
          SpaceAnswer.edited <$> some <$> d.perform e v pid := rfl
      rw [hperform] at h ⊢
      obtain ⟨_, houter, htrace⟩ := Op.traceOn_map others h
      obtain ⟨_, hinner, htrace'⟩ := Op.traceOn_map others houter
      rw [htrace, htrace', flushCalls_entries hinner]
      simp only [flushed]
      split <;> rfl

theorem flushCalls_answer {request : Request} {eff : Effect (Except Error Response)}
    (h : (e.answer request).runOn others m = some eff) :
    Performed.flushCalls m.tlb ((e.answer request).traceOn others m) =
      ((dispatch request).flushed others e m).map m.tlb.invalidate := by
  have hnone : (e.answer request).Unflushed → Performed.flushCalls m.tlb
      ((e.answer request).traceOn others m) = [] := fun hop => flushCalls_of_unflushed hop h m.tlb
  cases request with
  | invalidateTlb v => rfl
  | update v pid values mask =>
    have hanswer : e.answer (.update v pid values mask) =
        e.update v pid values mask >>= fun _ => pure .done := rfl
    rw [hanswer, Op.runOn_bind] at h
    obtain ⟨inner, hedit, _⟩ := Option.bind_eq_some_iff.mp h
    rw [hanswer, Op.traceOn_bind_pure others hedit, Engine.update, Engine.flushCalls_edit hedit]
    simp only [flushed]
    split <;> rfl
  | resolve vaddr pid | getRoot pid | setRoot pid root | readPage pfn | writePage pfn data
  | pageSize | switchTlb number | getMemoryTypes | setMemoryTypes value | lock pid | unlock pid =>
    exact hnone (unflushed_answer rfl)

/-- A call invalidates what `flushed` says, under the strategy that it finds active. -/
theorem flushes_perform (hq : others.Quiet) {c : Call} {eff : Effect (Except Error Answer)}
    (h : (c.perform e).runOn others m = some eff) :
    Event.flushes eff.events = (c.flushed others e m).map m.tlb.invalidate := by
  rw [Program.flushes_run hq h]
  have hnone : (c.perform e).Unflushed → Performed.flushCalls m.tlb
      ((c.perform e).traceOn others m) = [] := fun hop => flushCalls_of_unflushed hop h m.tlb
  cases c with
  | space c pid =>
    have hperform : (space c pid).perform e = Answer.space <$> c.perform e pid := rfl
    rw [hperform] at h
    obtain ⟨_, hinner, htrace⟩ := Op.traceOn_map others h
    exact (congrArg _ htrace).trans (flushCalls_spaceCall hinner)
  | dispatch request =>
    have hperform : (dispatch request).perform e = Answer.response <$> e.dispatch request := rfl
    rw [hperform] at h
    obtain ⟨_, hinner, htrace⟩ := Op.traceOn_map others h
    have hnote := Op.runOn_note others (.dispatching request) m
    rw [Engine.dispatch, Op.runOn_bind_ok others hnote] at hinner
    obtain ⟨later, hanswer, _⟩ := Option.map_eq_some_iff.mp hinner
    rw [Engine.dispatch, Op.traceOn_bind_ok others hnote] at htrace
    exact (congrArg _ htrace).trans (flushCalls_answer hanswer)
  | flush v => rfl
  | readPage pfn count => exact hnone ((e.unflushed_readPage pfn count).map _)
  | writePage pfn bytes => exact hnone ((e.unflushed_writePage pfn bytes).map _)
  | strategy => rfl
  | switchStrategy number => exact hnone ((Engine.unflushed_switchStrategy number).map _)
  | memoryTypes => exact hnone (e.unflushed_memoryTypes.map _)
  | setMemoryTypes value => exact hnone ((e.unflushed_setMemoryTypes value).map _)
  | memoryTypeTable => exact hnone (e.unflushed_memoryTypeTable.map _)
  | getMt index => exact hnone ((e.unflushed_memoryTypeTable.bind fun _ => .pure _).map _)
  | setMt index mt =>
    exact hnone ((e.unflushed_memoryTypeTable.bind fun _ => e.unflushed_setMemoryTypes _).map _)
  | findMt mt => exact hnone ((e.unflushed_memoryTypeTable.bind fun _ => .pure _).map _)
  | findFirstMt mt => exact hnone ((e.unflushed_memoryTypeTable.bind fun _ => .pure _).map _)
  | acquire pid => exact hnone ((Engine.unflushed_acquire pid).map _)
  | lock pid => exact hnone (((Engine.unflushed_acquire pid).bind fun _ => .pure _).map _)
  | release pid => rfl

/-- The invalidations of a sequence of calls, up to one that would wait for ever. -/
def flushTrace (others : Bystander) (e : Engine) : List Call → Machine → List FlushCall
  | [], _ => []
  | c :: rest, m =>
    match (c.perform e).runOn others m with
    | none => []
    | some eff =>
      (c.flushed others e m).map m.tlb.invalidate ++ flushTrace others e rest eff.machine

theorem flushes_runEach (hq : others.Quiet) (calls : List Call) (m : Machine) :
    Event.flushes ((runEach others e calls m).flatMap Effect.events) =
      flushTrace others e calls m := by
  induction calls generalizing m with
  | nil => rfl
  | cons c rest ih =>
    simp only [runEach, flushTrace]
    cases h : (c.perform e).runOn others m with
    | none => rfl
    | some eff =>
      simp only [List.flatMap_cons]
      rw [Event.flushes_append, flushes_perform hq h, ih]

end Call

/-- When an engine invalidates an address. -/
structure Engine.FlushDiscipline (e : Engine) (others : Bystander) : Prop where
  /-- An edit does so once it is through with its walk and its writes and before it gives back its
  reference, whatever is replied to it. -/
  course : ∀ (d : EntryEdit) vaddr pid trace r, (d.perform e vaddr pid).run.Path trace r →
    d.Course e vaddr pid trace r
  /-- Over a sequence of calls such edits and requests to invalidate do so, in their order. -/
  sequence : ∀ calls m, Event.flushes ((Call.runEach others e calls m).flatMap Effect.events) =
    Call.flushTrace others e calls m

theorem Engine.flush_discipline (e : Engine) {others : Bystander} (hq : others.Quiet) :
    e.FlushDiscipline others where
  course _ _ _ _ _ h := EntryEdit.path_perform h
  sequence calls m := Call.flushes_runEach hq calls m

/-- An edit under the kernel strategy, an edit of an unknown process and a request to invalidate
after a switch of the strategy. -/
theorem Engine.flush_discipline_selfMapped : Bystander.yielding.Quiet ∧
    Event.flushes ((Call.runEach .yielding ⟨.x86_64, .smallest⟩
      [.space (.edit (.entries (.setLastBit 3) ⟨0x10⟩)) 1,
        .space (.edit (.entries (.setLastBit 3) ⟨0x10⟩)) 7, .switchStrategy 1,
        .dispatch (.invalidateTlb ⟨0x20⟩)]
      { Machine.selfMapped with tlb := TlbControl.custom.withKernel }).flatMap Effect.events) =
        [.kernel ⟨0x10⟩, .custom ⟨0x20⟩] :=
  ⟨Bystander.quiet_yielding,
    ((⟨.x86_64, .smallest⟩ : Engine).flush_discipline Bystander.quiet_yielding).sequence _ _⟩

end Paging
