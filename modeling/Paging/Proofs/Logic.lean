import Paging.Proofs.Effects
import Paging.Proofs.Slots

/-!
# Logics of operations

What an operation on a space keeps to is proved along its composition. An `OpLogic` is a judgement
on operations with a rule for each thing that walks and edits are composed of; every such judgement
then holds of walks (`OpLogic.walk`) and edits (`OpLogic.edit`) of any geometry and over any tables.
The rules say which words may be accessed: aligned ones are read, and only what was read is written.
-/

namespace Paging

structure OpLogic (pid : Pid) where
  /-- Of an operation that runs while so many references to the process are held by its caller, and
  that answers as said if it answers. -/
  Holds : {α : Type} → Nat → (α → Prop) → Op α → Prop
  Granted : SpaceId → Prop
  /-- Known of the address of a word once it was read. -/
  Read : PhysicalAddress → Prop
  pure : ∀ {α : Type} {k : Nat} {P : α → Prop} {a : α}, P a → Holds k P (pure a)
  bind : ∀ {α β : Type} {k : Nat} {P : α → Prop} {Q : β → Prop} {op : Op α} {f : α → Op β},
    Holds k P op → (∀ a, P a → Holds k Q (f a)) → Holds k Q (op >>= f)
  liftRun : ∀ {α : Type} {k : Nat} {P : α → Prop} {op : Op α}, Holds k P op →
    Holds k (fun r => ∀ a, r = .ok a → P a) (ExceptT.lift op.run)
  mkPure : ∀ {α : Type} {k : Nat} (r : Except Error α),
    Holds k (fun _ => True) (ExceptT.mk (Pure.pure r))
  holding : ∀ {α : Type} {k : Nat} {P : α → Prop} {body : SpaceId → Op α}, k < 2 →
    (∀ s, Granted s → Holds (k + 1) P (body s)) → Holds k P (Op.holding pid body)
  note : ∀ {k : Nat} (notice : Notice), Holds k (fun _ => True) (Op.note notice)
  flush : ∀ {k : Nat} (vaddr : VirtualAddress), Holds k (fun _ => True) (Op.flush vaddr)
  readRoot : ∀ {k : Nat} {s : SpaceId}, Granted s → Holds k (fun _ => True) (Op.readRoot s)
  setRoot : ∀ {k : Nat} {s : SpaceId} (root : PhysicalAddress), Granted s →
    Holds k (fun _ => True) (Op.setRoot s root)
  readWord : ∀ {k : Nat} {a : PhysicalAddress}, a.Aligned → Holds k (fun _ => Read a) (Op.readWord a)
  writeWord : ∀ {k : Nat} {a : PhysicalAddress} (w : Word), a.Aligned → Read a →
    Holds k (fun _ => True) (Op.writeWord a w)

namespace OpLogic

variable {pid : Pid} (L : OpLogic pid) (e : Engine) (vaddr : VirtualAddress) {k : Nat}

theorem answer {α β : Type} {P : α → Prop} {op : Op α} (f : α → β) (h : L.Holds k P op) :
    L.Holds k (fun _ => True) (op >>= fun a => Pure.pure (f a)) :=
  L.bind h fun _ _ => L.pure trivial

theorem map {α β : Type} {P : α → Prop} {op : Op α} (f : α → β) (h : L.Holds k P op) :
    L.Holds k (fun _ => True) (f <$> op) := by
  rw [map_eq_pure_bind]
  exact L.answer f h

/-- Known of the visits of a walk. -/
def Visited (visits : List Visit) : Prop := ∀ v ∈ visits, v.slot.Aligned ∧ L.Read v.slot

theorem descend (levels : List Level) {table : PhysicalAddress} (ht : table.Aligned) :
    L.Holds k L.Visited (e.descend vaddr levels table) := by
  induction levels generalizing table with
  | nil => exact L.pure nofun
  | cons l deeper ih =>
    have hslot := e.aligned_slotAddress vaddr ht l
    refine L.bind (L.readWord hslot) fun raw hread => ?_
    have hhere : ∀ valid, L.Visited [⟨l, e.slotAddress table vaddr l, raw, valid⟩] := by
      intro valid v hv
      rw [List.mem_singleton.mp hv]
      exact ⟨hslot, hread⟩
    dsimp only
    split
    · exact L.pure (hhere _)
    · split
      · exact L.bind (L.note _) fun _ _ => L.pure (hhere _)
      · refine L.bind (ih (e.arch.holdsTable_tableAddress raw).aligned) fun rest hrest => ?_
        refine L.pure fun v hv => ?_
        rcases List.mem_cons.mp hv with rfl | hv
        · exact ⟨hslot, hread⟩
        · exact hrest v hv

theorem walkFrom {s : SpaceId} (hs : L.Granted s) :
    L.Holds k L.Visited (e.walkFrom s vaddr pid) := by
  refine L.bind (L.readRoot hs) fun root _ => ?_
  split
  · exact L.bind (L.note _) fun _ _ => L.pure nofun
  · exact L.descend e vaddr _ (e.arch.holdsTable_rootTable root).aligned

theorem walk (hk : k < 2) : L.Holds k L.Visited (e.walk vaddr pid) :=
  L.holding hk fun _ hs => L.walkFrom e vaddr hs

theorem resolve (hk : k < 2) : L.Holds k (fun _ => True) (e.resolve vaddr pid) :=
  L.answer _ (L.walk e vaddr hk)

theorem pagingRoot (hk : k < 2) : L.Holds k (fun _ => True) (Engine.pagingRoot pid) :=
  L.holding hk fun _ hs => L.readRoot hs

theorem setPagingRoot (hk : k < 2) (root : PhysicalAddress) :
    L.Holds k (fun _ => True) (Engine.setPagingRoot pid root) :=
  L.holding hk fun _ hs => L.bind (L.note _) fun _ _ => L.setRoot root hs

theorem barrier (hk : k < 2) : L.Holds k (fun _ => True) (Engine.barrier pid) :=
  L.holding hk fun _ hs => L.bind (L.readRoot hs) fun root _ => L.setRoot root hs

theorem writeLevels {visits : List Visit} (hv : L.Visited visits) (mask : LevelMask)
    (patchFor : Level → EntryPatch) (ls : List Level) (written : LevelMask) :
    L.Holds k (fun _ => True) (e.writeLevels visits mask patchFor ls written) := by
  induction ls generalizing written with
  | nil => exact L.pure trivial
  | cons l rest ih =>
    simp only [Engine.writeLevels]
    split
    · exact ih written
    · cases hr : Engine.reached? visits l with
      | none => exact L.bind (L.note _) fun _ _ => ih written
      | some v =>
        obtain ⟨hslot, hread⟩ := hv v (Engine.reached?_eq_some hr).1
        exact L.bind (L.note _) fun _ _ =>
          L.bind (L.writeWord _ hslot hread) fun _ _ => ih _

/-- What an edit does inside its space. -/
theorem editInside (mask : LevelMask) (patchFor : Level → EntryPatch) :
    L.Holds 1 (fun _ => True) (e.walk vaddr pid >>= fun visits =>
      ExceptT.lift (e.writeLevels visits mask patchFor Level.all .none).run >>= fun result =>
        Op.flush vaddr >>= fun _ => ExceptT.mk (Pure.pure result)) := by
  refine L.bind (L.walk e vaddr (by decide)) fun visits hv => ?_
  refine L.bind (L.liftRun (L.writeLevels e hv mask patchFor _ _)) fun r _ => ?_
  exact L.bind (L.flush vaddr) fun _ _ => L.mkPure r

theorem edit (mask : LevelMask) (patchFor : Level → EntryPatch) :
    L.Holds 0 (fun _ => True) (e.edit vaddr pid mask patchFor) :=
  L.holding (by decide) fun _ _ => L.editInside e vaddr mask patchFor

theorem perform (d : EntryEdit) :
    L.Holds 0 (fun _ => True) (d.perform e vaddr pid) := by
  rw [EntryEdit.perform_eq]
  exact L.answer _ (L.edit e vaddr _ _)

end OpLogic

end Paging
