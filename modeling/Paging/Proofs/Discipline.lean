import Paging.Proofs.Logic

/-!
# The discipline of edits

Every edit of a space keeps to one discipline (`Program.Guarded`): it only enters its process, never
more than twice at a time, gives back every reference and nothing else, touches no root but that of
the space it got, and writes only where it has read before.
-/

namespace Paging

variable {α β : Type}

/-- A program that keeps to the discipline while it holds `depth` references to the process and its
space, comes to an end with `stop` of them and with an answer as in `post`, in a memory that is
shaped like `shape`. -/
inductive Program.Guarded (pid : Pid) (space : SpaceId) (shape : Memory) (stop : Nat)
    (post : α → Prop) : Nat → Program α → Prop where
  | done {a : α} (h : post a) : Guarded pid space shape stop post stop (.done a)
  | enter {depth : Nat} {next : Except Error SpaceId → Program α} (hd : depth < 2)
      (h : Guarded pid space shape stop post (depth + 1) (next (.ok space))) :
      Guarded pid space shape stop post depth (.enter pid next)
  | release {depth : Nat} {next : Unit → Program α}
      (h : Guarded pid space shape stop post depth (next ())) :
      Guarded pid space shape stop post (depth + 1) (.act (.release pid) next)
  | readRoot {depth : Nat} {next : PhysicalAddress → Program α}
      (h : ∀ root, Guarded pid space shape stop post depth (next root)) :
      Guarded pid space shape stop post depth (.act (.readRoot space) next)
  | setRoot {depth : Nat} {root : PhysicalAddress} {next : Unit → Program α}
      (h : Guarded pid space shape stop post depth (next ())) :
      Guarded pid space shape stop post depth (.act (.setRoot space root) next)
  | readWord {depth : Nat} {a : PhysicalAddress} {next : Except Error Word → Program α}
      (hok : ∀ w, shape.Readable a → Guarded pid space shape stop post depth (next (.ok w)))
      (herr : ∀ e, Guarded pid space shape stop post depth (next (.error e))) :
      Guarded pid space shape stop post depth (.act (.readWord a) next)
  | writeWord {depth : Nat} {a : PhysicalAddress} {w : Word} {next : Except Error Unit → Program α}
      (ha : shape.Readable a) (h : ∀ r, Guarded pid space shape stop post depth (next r)) :
      Guarded pid space shape stop post depth (.act (.writeWord a w) next)
  | flush {depth : Nat} {vaddr : VirtualAddress} {next : Unit → Program α}
      (h : Guarded pid space shape stop post depth (next ())) :
      Guarded pid space shape stop post depth (.act (.flush vaddr) next)
  | note {depth : Nat} {notice : Notice} {next : Unit → Program α}
      (h : Guarded pid space shape stop post depth (next ())) :
      Guarded pid space shape stop post depth (.act (.note notice) next)

variable {pid : Pid} {space : SpaceId} {shape : Memory}

theorem Program.Guarded.bind {stop mid depth : Nat} {P : α → Prop} {Q : β → Prop} {p : Program α}
    {f : α → Program β} (hp : Guarded pid space shape mid P depth p)
    (hf : ∀ a, P a → Guarded pid space shape stop Q mid (f a)) :
    Guarded pid space shape stop Q depth (p.bind f) := by
  induction hp with
  | done h => exact hf _ h
  | enter hd h ih => exact .enter hd ih
  | release h ih => exact .release ih
  | readRoot h ih => exact .readRoot ih
  | setRoot h ih => exact .setRoot ih
  | readWord hok herr ihok iherr => exact .readWord ihok iherr
  | writeWord ha h ih => exact .writeWord ha ih
  | flush h ih => exact .flush ih
  | note h ih => exact .note ih

/-- An operation that keeps to the discipline and ends with as many references as it began with. -/
def Op.Guarded (pid : Pid) (space : SpaceId) (shape : Memory) (depth : Nat) (P : α → Prop)
    (op : Op α) : Prop :=
  Program.Guarded pid space shape depth (fun r => ∀ a, r = .ok a → P a) depth op.run

namespace Op.Guarded

variable {depth : Nat} {P : α → Prop} {Q : β → Prop}

theorem pure {a : α} (h : P a) : Guarded pid space shape depth P (pure a) :=
  .done fun _ hb => Except.ok.inj hb ▸ h

theorem bind {op : Op α} {f : α → Op β} (h : Guarded pid space shape depth P op)
    (hf : ∀ a, P a → Guarded pid space shape depth Q (f a)) :
    Guarded pid space shape depth Q (op >>= f) := by
  apply Program.Guarded.bind (f := fun r => ExceptT.bindCont f r) h
  intro r hr
  cases r with
  | ok a => exact hf a (hr a rfl)
  | error e => exact .done nofun

theorem note (notice : Notice) :
    Guarded pid space shape depth (fun _ => True) (Op.note notice) :=
  Program.Guarded.note (.done fun _ _ => trivial)

theorem flush (vaddr : VirtualAddress) :
    Guarded pid space shape depth (fun _ => True) (Op.flush vaddr) :=
  Program.Guarded.flush (.done fun _ _ => trivial)

theorem readRoot : Guarded pid space shape depth (fun _ => True) (Op.readRoot space) :=
  Program.Guarded.readRoot fun _ => .done fun _ _ => trivial

theorem setRoot (root : PhysicalAddress) :
    Guarded pid space shape depth (fun _ => True) (Op.setRoot space root) :=
  Program.Guarded.setRoot (.done fun _ _ => trivial)

theorem readWord (a : PhysicalAddress) :
    Guarded pid space shape depth (fun _ => shape.Readable a) (Op.readWord a) :=
  Program.Guarded.readWord (fun _ ha => .done fun _ _ => ha) fun _ => .done nofun

theorem writeWord {a : PhysicalAddress} (ha : shape.Readable a) (w : Word) :
    Guarded pid space shape depth (fun _ => True) (Op.writeWord a w) :=
  Program.Guarded.writeWord ha fun _ => .done fun _ _ => trivial

theorem holding {body : SpaceId → Op α} (hd : depth < 2)
    (h : Guarded pid space shape (depth + 1) P (body space)) :
    Guarded pid space shape depth P (Op.holding pid body) := by
  refine Program.Guarded.enter hd ?_
  refine Program.Guarded.bind h fun r hr => ?_
  exact .release (.done hr)

theorem lift_run {op : Op α} (h : Guarded pid space shape depth P op) :
    Guarded pid space shape depth (fun r => ∀ a, r = .ok a → P a) (ExceptT.lift op.run) := by
  refine Program.Guarded.bind (f := fun r => .done (Except.ok r)) h fun r hr => .done ?_
  intro b hb
  cases hb
  exact hr

theorem mk_pure (r : Except Error α) :
    Guarded pid space shape depth (fun _ => True) (ExceptT.mk (Pure.pure r)) :=
  .done fun _ _ => trivial

end Op.Guarded

/-- The discipline as a logic of operations. -/
def OpLogic.guarded (pid : Pid) (space : SpaceId) (shape : Memory) : OpLogic pid where
  Holds depth P op := Op.Guarded pid space shape depth P op
  Granted s := s = space
  Read a := shape.Readable a
  pure := Op.Guarded.pure
  bind := Op.Guarded.bind
  liftRun := Op.Guarded.lift_run
  mkPure := Op.Guarded.mk_pure
  holding hd h := Op.Guarded.holding hd (h space rfl)
  note := Op.Guarded.note
  flush := Op.Guarded.flush
  readRoot hs := hs ▸ Op.Guarded.readRoot
  setRoot root hs := hs ▸ Op.Guarded.setRoot root
  readWord _ := Op.Guarded.readWord _
  writeWord w _ ha := Op.Guarded.writeWord ha w

/-! ### Edits -/

/-- Whatever changes the tables or the root of a space. -/
inductive SpaceEdit where
  | entries (edit : EntryEdit) (vaddr : VirtualAddress)
  | setRoot (root : PhysicalAddress)
  | barrier

namespace SpaceEdit

def perform (d : SpaceEdit) (e : Engine) (pid : Pid) : Op (Option EditReport) :=
  match d with
  | entries edit vaddr => some <$> edit.perform e vaddr pid
  | setRoot root => (fun _ => none) <$> Engine.setPagingRoot pid root
  | barrier => (fun _ => none) <$> Engine.barrier pid

theorem holds_perform (L : OpLogic pid) (d : SpaceEdit) (e : Engine) :
    L.Holds 0 (fun _ => True) (d.perform e pid) := by
  cases d with
  | entries edit vaddr => exact L.map _ (L.perform e vaddr edit)
  | setRoot root => exact L.map _ (L.setPagingRoot (by decide) root)
  | barrier => exact L.map _ (L.barrier (by decide))

theorem guarded_perform (d : SpaceEdit) (e : Engine) :
    Op.Guarded pid space shape 0 (fun _ => True) (d.perform e pid) :=
  d.holds_perform (.guarded pid space shape) e

end SpaceEdit

end Paging
