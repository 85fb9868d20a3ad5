import Paging.Proofs.Flushing

/-!
# The active strategy

A control begins with the custom strategy, and with the kernel strategy once a kernel routine is
installed; from then on only a switch that succeeds changes which one is active, and none selects a
routine that is not there (`TlbControl.after_eq`, `TlbControl.Ready.after`). So an invalidation
never falls back from one strategy to the other (`TlbSetup.strategies_followed`).
-/

namespace Paging

/-! ### Setting up -/

/-- How a control is set up. -/
inductive TlbSetup where
  | custom
  /-- With a kernel routine found among the kernel's symbols. -/
  | symbol (lookup : String → Option Word) (name : String)
  | withKernel (setup : TlbSetup)
  | withBroadcast (setup : TlbSetup)

namespace TlbSetup

def control : TlbSetup → Except Refusal TlbControl
  | custom => .ok .custom
  | symbol lookup name => TlbControl.ofSymbol lookup name
  | withKernel setup => setup.control.map .withKernel
  | withBroadcast setup => setup.control.map .withBroadcast

/-- A kernel routine is installed. -/
def hasKernel : TlbSetup → Bool
  | custom => false
  | symbol .. | withKernel _ => true
  | withBroadcast setup => setup.hasKernel

/-- A broadcast hook is installed. -/
def hasHook : TlbSetup → Bool
  | custom | symbol .. => false
  | withKernel setup => setup.hasHook
  | withBroadcast _ => true

/-- The strategy to begin with. -/
def strategy (setup : TlbSetup) : TlbStrategy := if setup.hasKernel then .kernel else .custom

end TlbSetup

theorem TlbControl.ofSymbol_eq_ok_iff {lookup : String → Option Word} {name : String}
    {t : TlbControl} : ofSymbol lookup name = .ok t ↔
      (∃ address, lookup name = some address ∧ address ≠ 0) ∧ t = custom.withKernel := by
  unfold ofSymbol
  cases lookup name with
  | none => simp
  | some address => by_cases hzero : address = 0 <;> simp [hzero, eq_comm]

namespace TlbSetup

variable {setup : TlbSetup} {t : TlbControl}

/-- What is installed, and in which order, decides on the control. -/
theorem eq_of_control (h : setup.control = .ok t) :
    t = ⟨setup.hasKernel, setup.hasHook, setup.strategy⟩ := by
  induction setup generalizing t with
  | custom => exact (Except.ok.inj h).symm
  | symbol lookup name => exact (TlbControl.ofSymbol_eq_ok_iff.mp h).2
  | withKernel setup ih | withBroadcast setup ih =>
    rw [control] at h
    cases hbefore : setup.control with
    | error r =>
      rw [hbefore] at h
      cases h
    | ok before =>
      rw [hbefore] at h
      cases h
      rw [ih hbefore]
      rfl

end TlbSetup

/-! ### Calls -/

inductive TlbCall where
  | switch (id : UInt8)
  | invalidate (vaddr : VirtualAddress)

inductive TlbAnswer where
  | switched (reply : Except Refusal TlbStrategy)
  | invalidated (call : FlushCall)

/-- The strategy that a call selected. -/
def TlbAnswer.selected? : TlbAnswer → Option TlbStrategy
  | switched (.ok strategy) => some strategy
  | _ => none

/-- What is done by an invalidation, for routines that do something of type `α`. The hook is given
the custom routine with the address. -/
def FlushCall.run {α : Type} (kernel : Word → α) (custom : VirtualAddress → α)
    (hook : (VirtualAddress → α) → VirtualAddress → α) : FlushCall → α
  | .kernel vaddr => kernel vaddr.word
  | .custom vaddr => custom vaddr
  | broadcast vaddr => hook custom vaddr

namespace TlbControl

def answer (t : TlbControl) : TlbCall → TlbAnswer
  | .switch id => .switched ((t.switch id).map Prod.fst)
  | .invalidate vaddr => .invalidated (t.invalidate vaddr)

def next (t : TlbControl) : TlbCall → TlbControl
  | .switch id => t.afterSwitch id
  | .invalidate _ => t

/-- The answers to calls that are made one after the other. -/
def answers (t : TlbControl) : List TlbCall → List TlbAnswer
  | [] => []
  | c :: rest => t.answer c :: (t.next c).answers rest

def after (t : TlbControl) (calls : List TlbCall) : TlbControl := calls.foldl next t

/-- The strategy that calls selected last. -/
def lastSelected? (t : TlbControl) (calls : List TlbCall) : Option TlbStrategy :=
  ((t.answers calls).filterMap TlbAnswer.selected?).getLast?

/-- The active strategy has its routine. -/
def Ready (t : TlbControl) : Prop := t.active = .kernel → t.kernel = true

variable {t : TlbControl} {id : UInt8}

/-! ### One call -/

theorem switch_eq_ok_iff {strategy : TlbStrategy} {t' : TlbControl} :
    t.switch id = .ok (strategy, t') ↔ id = strategy.id ∧
      (strategy = .kernel → t.kernel = true) ∧ t' = { t with active := strategy } := by
  rw [← TlbStrategy.ofId?_eq_some_iff]
  unfold switch
  cases TlbStrategy.ofId? id with
  | none => simp
  | some found => by_cases hmissing : found = .kernel ∧ t.kernel = false <;> grind

theorem switch_eq_error_iff {r : Refusal} : t.switch id = .error r ↔
    1 < id ∧ r = ⟨.unknownTlbStrategy id, [.unknownStrategy id]⟩ ∨
      id = 0 ∧ t.kernel = false ∧
        r = ⟨.tlbStrategyUnavailable .kernel, [.noKernelStrategy]⟩ := by
  have hzero : id = 0 ↔ TlbStrategy.ofId? id = some .kernel := by
    rw [TlbStrategy.ofId?_eq_some_iff]
    rfl
  rw [hzero, ← TlbStrategy.ofId?_eq_none_iff]
  unfold switch
  cases TlbStrategy.ofId? id with
  | none => grind
  | some found => by_cases hmissing : found = .kernel ∧ t.kernel = false <;> grind

theorem answer_switch_eq_ok_iff {strategy : TlbStrategy} :
    t.answer (.switch id) = .switched (.ok strategy) ↔
      id = strategy.id ∧ (strategy = .kernel → t.kernel = true) := by
  have hanswer : t.answer (.switch id) = .switched (.ok strategy) ↔
      ∃ t', t.switch id = .ok (strategy, t') := by
    rw [answer, TlbAnswer.switched.injEq]
    cases t.switch id <;> simp [Except.map, Prod.ext_iff]
  simp [hanswer, switch_eq_ok_iff]

theorem answer_switch_eq_error_iff {r : Refusal} :
    t.answer (.switch id) = .switched (.error r) ↔
      1 < id ∧ r = ⟨.unknownTlbStrategy id, [.unknownStrategy id]⟩ ∨
        id = 0 ∧ t.kernel = false ∧
          r = ⟨.tlbStrategyUnavailable .kernel, [.noKernelStrategy]⟩ := by
  rw [← switch_eq_error_iff, answer, TlbAnswer.switched.injEq]
  cases t.switch id <;> simp [Except.map]

theorem afterSwitch_of_error {r : Refusal} (h : t.switch id = .error r) : t.afterSwitch id = t := by
  rw [afterSwitch, h]

/-- A call changes the active strategy alone, and that to the one it selects. -/
theorem next_eq (t : TlbControl) (c : TlbCall) :
    t.next c = { t with active := (t.answer c).selected?.getD t.active } := by
  cases c with
  | invalidate vaddr => rfl
  | switch id =>
    cases hswitch : t.switch id with
    | error r =>
      rw [next, answer, afterSwitch_of_error hswitch, hswitch]
      rfl
    | ok switched =>
      rw [next, answer, afterSwitch, hswitch]
      exact (switch_eq_ok_iff.mp hswitch).2.2

/-- A switch to the kernel strategy succeeds only with its routine there. -/
theorem Ready.next (h : t.Ready) (c : TlbCall) : (t.next c).Ready := by
  cases c with
  | invalidate vaddr => exact h
  | switch id =>
    show (t.afterSwitch id).Ready
    cases hswitch : t.switch id with
    | error r => rwa [afterSwitch_of_error hswitch]
    | ok switched =>
      obtain ⟨-, hkernel, hnext⟩ := switch_eq_ok_iff.mp hswitch
      rw [afterSwitch, hswitch]
      show switched.2.Ready
      rw [hnext]
      exact hkernel

/-- With its routine there the kernel strategy calls nothing else. -/
theorem Ready.run_invalidate {α : Type} (h : t.Ready) (vaddr : VirtualAddress) (kernel : Word → α)
    (custom : VirtualAddress → α) (hook : (VirtualAddress → α) → VirtualAddress → α) :
    (t.invalidate vaddr).run kernel custom hook =
      match t.active with
      | .kernel => kernel vaddr.word
      | .custom => if t.broadcast then hook custom vaddr else custom vaddr := by
  unfold invalidate
  cases hactive : t.active with
  | kernel => rw [if_pos ⟨rfl, h hactive⟩]; rfl
  | custom =>
    rw [if_neg (by simp)]
    cases t.broadcast <;> rfl

/-! ### Sequences of calls -/

/-- Calls change the active strategy alone, and that to the one selected last. -/
theorem after_eq (t : TlbControl) (calls : List TlbCall) :
    t.after calls = { t with active := (t.lastSelected? calls).getD t.active } := by
  induction calls generalizing t with
  | nil => rfl
  | cons c rest ih =>
    show (t.next c).after rest = _
    rw [ih, next_eq]
    simp only [lastSelected?, answers, ← next_eq]
    cases hselected : (t.answer c).selected? with
    | none => simp [List.filterMap_cons_none hselected]
    | some strategy => simp [List.filterMap_cons_some hselected, List.getLast?_cons]

theorem Ready.after (h : t.Ready) (calls : List TlbCall) : (t.after calls).Ready := by
  induction calls generalizing t with
  | nil => exact h
  | cons c rest ih => exact ih (h.next c)

end TlbControl

namespace TlbSetup

variable {setup : TlbSetup} {t : TlbControl}

theorem ready_of_control (h : setup.control = .ok t) : t.Ready := by
  rw [eq_of_control h]
  intro hactive
  cases hkernel : setup.hasKernel with
  | true => rfl
  | false => simp [strategy, hkernel] at hactive

/-- After calls, what was installed is still there, and the strategy selected last is active. -/
theorem after_of_control (h : setup.control = .ok t) (calls : List TlbCall) : t.after calls =
    ⟨setup.hasKernel, setup.hasHook, (t.lastSelected? calls).getD setup.strategy⟩ := by
  rw [t.after_eq calls]
  cases eq_of_control h
  rfl

theorem kernel_after (h : setup.control = .ok t) (calls : List TlbCall) :
    (t.after calls).kernel = setup.hasKernel := congrArg _ (after_of_control h calls)

theorem broadcast_after (h : setup.control = .ok t) (calls : List TlbCall) :
    (t.after calls).broadcast = setup.hasHook := congrArg _ (after_of_control h calls)

/-- A control that was set up in some way goes by the strategy that was selected last. -/
structure StrategiesFollowed (setup : TlbSetup) (t : TlbControl) : Prop where
  active : ∀ calls, (t.after calls).active = (t.lastSelected? calls).getD setup.strategy
  /-- What is installed stays installed. -/
  installed : ∀ calls, (t.after calls).kernel = setup.hasKernel ∧
    (t.after calls).broadcast = setup.hasHook
  kernel_present : ∀ calls, (t.after calls).active = .kernel → setup.hasKernel = true
  succeeded : ∀ calls id strategy,
    (t.after calls).answer (.switch id) = .switched (.ok strategy) ↔
      id = strategy.id ∧ (strategy = .kernel → setup.hasKernel = true)
  failed : ∀ calls id r, (t.after calls).answer (.switch id) = .switched (.error r) ↔
    1 < id ∧ r = ⟨.unknownTlbStrategy id, [.unknownStrategy id]⟩ ∨
      id = 0 ∧ setup.hasKernel = false ∧
        r = ⟨.tlbStrategyUnavailable .kernel, [.noKernelStrategy]⟩
  /-- A switch that fails changes nothing. -/
  refused : ∀ calls id r, (t.after calls).answer (.switch id) = .switched (.error r) →
    (t.after calls).next (.switch id) = t.after calls
  /-- An invalidation runs one routine, for its address. -/
  invalidated : ∀ calls vaddr, ∃ call,
    (t.after calls).answer (.invalidate vaddr) = .invalidated call ∧
    ∀ (α : Type) (kernel : Word → α) custom hook, call.run kernel custom hook =
      match (t.after calls).active with
      | .kernel => kernel vaddr.word
      | .custom => if setup.hasHook then hook custom vaddr else custom vaddr

theorem strategies_followed (h : setup.control = .ok t) : setup.StrategiesFollowed t where
  active calls := congrArg _ (after_of_control h calls)
  installed calls := ⟨kernel_after h calls, broadcast_after h calls⟩
  kernel_present calls hactive := by
    rw [← kernel_after h calls]
    exact (ready_of_control h).after calls hactive
  succeeded calls id strategy := by
    rw [TlbControl.answer_switch_eq_ok_iff, kernel_after h]
  failed calls id r := by
    rw [TlbControl.answer_switch_eq_error_iff, kernel_after h]
  refused calls id r hrefused := by
    rw [TlbControl.next_eq, hrefused]
    rfl
  invalidated calls vaddr := by
    refine ⟨_, rfl, fun α kernel custom hook => ?_⟩
    rw [((ready_of_control h).after calls).run_invalidate, broadcast_after h]

/-- Both routines and the hook, an unknown strategy and then the custom one: the hook runs the custom
routine on two processors. -/
theorem strategies_followed_both :
    (custom.withKernel.withBroadcast).control = .ok ⟨true, true, .kernel⟩ ∧
    (TlbControl.after ⟨true, true, .kernel⟩ [.switch 7, .switch 1]).active = .custom ∧
    ∃ call, (TlbControl.after ⟨true, true, .kernel⟩ [.switch 7, .switch 1]).answer
        (.invalidate ⟨0xc000⟩) = .invalidated call ∧
      call.run (fun _ => []) (fun vaddr => [vaddr]) (fun f vaddr => f vaddr ++ f vaddr) =
        [⟨0xc000⟩, ⟨0xc000⟩] := by
  have hsetup : (custom.withKernel.withBroadcast).control = .ok ⟨true, true, .kernel⟩ := rfl
  have hfollowed := strategies_followed hsetup
  have hactive := hfollowed.active [.switch 7, .switch 1]
  obtain ⟨call, hanswer, hrun⟩ := hfollowed.invalidated [.switch 7, .switch 1] ⟨0xc000⟩
  refine ⟨hsetup, hactive, call, hanswer, ?_⟩
  rw [hrun, hactive]
  rfl

end TlbSetup

end Paging
