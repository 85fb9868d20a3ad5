import Paging.Proofs.Logic
import Paging.Proofs.ReadBack
import Paging.Proofs.Traces

/-!
# What operations leave in memory

An operation that writes only where it has read leaves every aligned word that it does not store,
and which words can be read or written (`Op.Framed`). This is a logic of operations
(`OpLogic.framed`), so it holds of all walks and edits.
-/

namespace Paging

variable {α β : Type}

namespace Memory

/-- The second memory is shaped like the first, and the aligned words that are not listed read as
they do there. -/
structure KeptBut (stored : List PhysicalAddress) (m m' : Memory) : Prop where
  shape : m.SameShape m'
  words : ∀ b, b.Aligned → b ∉ stored → m'.readWord b = m.readWord b

namespace KeptBut

variable {m m' m'' : Memory} {s t : List PhysicalAddress}

theorem refl (m : Memory) : m.KeptBut s m := ⟨.refl m, fun _ _ _ => rfl⟩

theorem trans (h : m.KeptBut s m') (h' : m'.KeptBut t m'') : m.KeptBut (s ++ t) m'' where
  shape := h.shape.trans h'.shape
  words b hb hnot := by
    have hs : b ∉ s := fun hm => hnot (List.mem_append_left _ hm)
    have ht : b ∉ t := fun hm => hnot (List.mem_append_right _ hm)
    rw [h'.words b hb ht, h.words b hb hs]

theorem laid {a : PhysicalAddress} (hread : m.Readable a) (ha : a.Aligned) (w : Word) :
    m.KeptBut [a] (m.laid a w) where
  shape := sameShape_laid m a w
  words b hb hnot := by
    have hne : a ≠ b := fun hab => hnot (List.mem_singleton.mpr hab.symm)
    by_cases hz : m.backing = .file .zeros
    · rw [Memory.laid, if_pos hz]
    · rw [readWord_laid hz hread ha hb, if_neg hne]

end KeptBut

end Memory

/-- Run over a memory shaped like `shape`, the operation keeps the words that it does not store, and
answers as said if it answers. -/
def Op.Framed (shape : Memory) (P : α → Prop) (op : Op α) : Prop :=
  ∀ (others : Bystander) (m : Machine) (eff : Effect (Except Error α)),
    shape.SameShape m.memory → op.runOn others m = some eff →
    m.memory.KeptBut (Performed.wordsStored (op.traceOn others m)) eff.machine.memory ∧
      ∀ a, eff.reply = .ok a → P a

namespace Op.Framed

variable {shape : Memory} {P : α → Prop} {Q : β → Prop}

theorem mk_pure {r : Except Error α} (h : ∀ a, r = .ok a → P a) :
    Framed shape P (ExceptT.mk (Pure.pure r)) := by
  intro others m eff _ hrun
  cases hrun
  exact ⟨.refl _, h⟩

theorem pure {a : α} (h : P a) : Framed shape P (Pure.pure a) :=
  mk_pure fun _ hb => Except.ok.inj hb ▸ h

theorem bind {op : Op α} {f : α → Op β} (h : Framed shape P op)
    (hf : ∀ a, P a → Framed shape Q (f a)) : Framed shape Q (op >>= f) := by
  intro others m eff hshape hrun
  rw [runOn_bind] at hrun
  obtain ⟨⟨es, m', reply⟩, hfirst, hfollow⟩ := Option.bind_eq_some_iff.mp hrun
  obtain ⟨hkept, hpost⟩ := h others m _ hshape hfirst
  cases reply with
  | error err =>
    cases hfollow
    rw [traceOn_bind_error others hfirst]
    exact ⟨hkept, nofun⟩
  | ok a =>
    obtain ⟨later, hrest, rfl⟩ := Option.map_eq_some_iff.mp hfollow
    obtain ⟨hkept', hpost'⟩ := hf a (hpost a rfl) others m' later (hshape.trans hkept.shape) hrest
    rw [traceOn_bind_ok others hfirst, Performed.wordsStored_append]
    exact ⟨hkept.trans hkept', hpost'⟩

theorem lift_run {op : Op α} (h : Framed shape P op) :
    Framed shape (fun r => ∀ a, r = .ok a → P a) (ExceptT.lift op.run) := by
  intro others m eff hshape hrun
  rw [runOn_lift] at hrun
  obtain ⟨inner, hinner, rfl⟩ := Option.map_eq_some_iff.mp hrun
  obtain ⟨hkept, hpost⟩ := h others m inner hshape hinner
  rw [traceOn_lift others hinner]
  refine ⟨hkept, fun r hr => ?_⟩
  cases hr
  exact hpost

/-- Actions that do not touch memory. -/
theorem act {op : Op α} (action : Action) (g : action.Reply → Except Error α)
    (hop : op.run = .act action fun r => .done (g r))
    (hm : ∀ m : Machine, (m.perform action).machine.memory = m.memory) :
    Framed shape (fun _ => True) op := by
  intro others m eff _ hrun
  rw [runOn_act others hop] at hrun
  cases hrun
  rw [hm]
  exact ⟨.refl _, fun _ _ => trivial⟩

theorem readWord (a : PhysicalAddress) :
    Framed shape (fun _ => shape.Readable a) (Op.readWord a) := by
  intro others m eff hshape hrun
  rw [runOn_readWord] at hrun
  cases hw : m.memory.readWord a with
  | error r =>
    rw [hw] at hrun
    cases hrun
    exact ⟨.refl _, nofun⟩
  | ok word =>
    rw [hw] at hrun
    cases hrun
    exact ⟨.refl _, fun _ _ => hshape.readable.mpr ⟨word, hw⟩⟩

theorem writeWord {a : PhysicalAddress} (ha : a.Aligned) (hread : shape.Readable a) (w : Word) :
    Framed shape (fun _ => True) (Op.writeWord a w) := by
  intro others m eff hshape hrun
  have hreadable := hshape.readable.mp hread
  have htrace : (Op.writeWord a w).traceOn others m = _ :=
    traceOn_act others (a := .writeWord a w) (g := id) rfl m
  have hwrite := Memory.writeWord_of_readable hreadable w
  rw [runOn_writeWord] at hrun
  rw [htrace]
  simp only [Machine.perform]
  cases hr : m.memory.writeRefusal? a with
  | some r =>
    rw [hr] at hwrite
    rw [hwrite] at hrun ⊢
    cases hrun
    exact ⟨.refl _, fun _ _ => trivial⟩
  | none =>
    rw [hr] at hwrite
    rw [hwrite] at hrun ⊢
    cases hrun
    exact ⟨.laid hreadable ha w, fun _ _ => trivial⟩

theorem holding {pid : Pid} {body : SpaceId → Op α} (h : ∀ s, Framed shape P (body s)) :
    Framed shape P (Op.holding pid body) := by
  intro others m eff hshape hrun
  cases hen : m.locks.enterAlone others pid with
  | none =>
    rw [runOn_holding_none others body hen] at hrun
    cases hrun
  | some now =>
    cases hr : now.reply with
    | error err =>
      rw [runOn_holding_refused others body hen hr] at hrun
      cases hrun
      exact ⟨.refl _, nofun⟩
    | ok space =>
      rw [runOn_holding_granted others body hen hr] at hrun
      obtain ⟨inside, hbody, rfl⟩ := Option.map_eq_some_iff.mp hrun
      obtain ⟨hkept, hpost⟩ := h space others { m with locks := now.table } inside hshape hbody
      rw [traceOn_holding_granted others body hen hr hbody, List.cons_append,
        ← List.singleton_append, Performed.wordsStored_append, Performed.wordsStored_append]
      have hnothing : Performed.wordsStored [.acted (.release pid) ()] = [] := rfl
      rw [hnothing, List.append_nil]
      exact ⟨hkept, hpost⟩

end Op.Framed

def OpLogic.framed (pid : Pid) (shape : Memory) : OpLogic pid where
  Holds _ P op := op.Framed shape P
  Granted _ := True
  Read a := shape.Readable a
  pure := Op.Framed.pure
  bind := Op.Framed.bind
  liftRun := Op.Framed.lift_run
  mkPure _ := Op.Framed.mk_pure fun _ _ => trivial
  holding _ h := Op.Framed.holding fun s => h s trivial
  note n := Op.Framed.act (.note n) .ok rfl fun _ => rfl
  flush v := Op.Framed.act (.flush v) .ok rfl fun _ => rfl
  readRoot {_ s} _ := Op.Framed.act (.readRoot s) .ok rfl fun _ => rfl
  setRoot {_ s} root _ := Op.Framed.act (.setRoot s root) .ok rfl fun _ => rfl
  readWord _ := Op.Framed.readWord _
  writeWord w ha hread := Op.Framed.writeWord ha hread w

end Paging
