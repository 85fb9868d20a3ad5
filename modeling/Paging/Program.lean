import Paging.Event

/-!
# Programs

What the engine does is written as a program: a tree of atomic actions on a machine, each followed
by what to do with the reply. Entering an address space is the one thing that may have to wait, so
it is a node of its own. A program says nothing about who else is at work; it can be run alone or in
turns with others.
-/

namespace Paging

inductive Action where
  /-- Gives back a reference to the space of a process. -/
  | release (pid : Pid)
  | readRoot (space : SpaceId)
  | setRoot (space : SpaceId) (root : PhysicalAddress)
  | readWord (address : PhysicalAddress)
  | writeWord (address : PhysicalAddress) (word : Word)
  | readBytes (address : PhysicalAddress) (count : Nat)
  | writeBytes (address : PhysicalAddress) (bytes : List UInt8)
  | flush (vaddr : VirtualAddress)
  | strategy
  | switchStrategy (id : UInt8)
  | readRegister
  | writeRegister (value : Word)
  | note (notice : Notice)

@[reducible] def Action.Reply : Action → Type
  | release _ => Unit
  | readRoot _ => PhysicalAddress
  | setRoot _ _ => Unit
  | readWord _ => Except Error Word
  | writeWord _ _ => Except Error Unit
  | readBytes _ _ => Except Error (List UInt8)
  | writeBytes _ _ => Except Error Unit
  | flush _ => Unit
  | strategy => TlbStrategy
  | switchStrategy _ => Except Error TlbStrategy
  | readRegister => Option Word
  | writeRegister _ => Unit
  | note _ => Unit

inductive Program (α : Type) where
  | done (value : α)
  | act (action : Action) (next : action.Reply → Program α)
  /-- Enters the space of a process and goes on with a reference to it or the reason why not. -/
  | enter (pid : Pid) (next : Except Error SpaceId → Program α)

namespace Program

variable {α β γ : Type}

def bind : Program α → (α → Program β) → Program β
  | done a, f => f a
  | act action next, f => act action fun r => (next r).bind f
  | enter pid next, f => enter pid fun r => (next r).bind f

instance : Monad Program where
  pure := done
  bind := bind

theorem bind_done (p : Program α) : p.bind done = p := by
  induction p with
  | done a => rfl
  | act action next ih => simp only [bind, ih]
  | enter pid next ih => simp only [bind, ih]

theorem bind_assoc (p : Program α) (f : α → Program β) (g : β → Program γ) :
    (p.bind f).bind g = p.bind fun a => (f a).bind g := by
  induction p with
  | done a => rfl
  | act action next ih => simp only [bind, ih]
  | enter pid next ih => simp only [bind, ih]

instance : LawfulMonad Program :=
  LawfulMonad.mk' Program (fun p => bind_done p) (fun _ _ => rfl) bind_assoc

def perform (action : Action) : Program action.Reply := act action done

end Program

abbrev Op (α : Type) := ExceptT Error Program α

namespace Op

variable {α : Type}

def note (notice : Notice) : Op Unit := ExceptT.lift (Program.perform (.note notice))

/-- Notices of a refusal, in order, and then its error. -/
def refuse (r : Refusal) : Op α := do
  r.notices.forM note
  throw r.error

def ofExcept (r : Except Refusal α) : Op α :=
  match r with
  | .ok a => pure a
  | .error r => refuse r

/-- Runs `body` while holding the address space of a process, and gives the reference back however
the body ends. -/
def holding (pid : Pid) (body : SpaceId → Op α) : Op α :=
  ExceptT.mk <| .enter pid fun
    | .error e => .done (.error e)
    | .ok space => do
      let result ← (body space).run
      Program.perform (.release pid)
      pure result

/-- Enters the space of a process and keeps the reference. -/
def acquire (pid : Pid) : Op SpaceId := ExceptT.mk (.enter pid .done)

def release (pid : Pid) : Op Unit := ExceptT.lift (Program.perform (.release pid))

def readRoot (space : SpaceId) : Op PhysicalAddress :=
  ExceptT.lift (Program.perform (.readRoot space))

def setRoot (space : SpaceId) (root : PhysicalAddress) : Op Unit :=
  ExceptT.lift (Program.perform (.setRoot space root))

def readWord (address : PhysicalAddress) : Op Word :=
  ExceptT.mk (Program.perform (.readWord address))

def writeWord (address : PhysicalAddress) (word : Word) : Op Unit :=
  ExceptT.mk (Program.perform (.writeWord address word))

def readBytes (address : PhysicalAddress) (count : Nat) : Op (List UInt8) :=
  ExceptT.mk (Program.perform (.readBytes address count))

def writeBytes (address : PhysicalAddress) (bytes : List UInt8) : Op Unit :=
  ExceptT.mk (Program.perform (.writeBytes address bytes))

def flush (vaddr : VirtualAddress) : Op Unit := ExceptT.lift (Program.perform (.flush vaddr))

def strategy : Op TlbStrategy := ExceptT.lift (Program.perform .strategy)

def switchStrategy (id : UInt8) : Op TlbStrategy :=
  ExceptT.mk (Program.perform (.switchStrategy id))

def readRegister : Op (Option Word) := ExceptT.lift (Program.perform .readRegister)

def writeRegister (value : Word) : Op Unit :=
  ExceptT.lift (Program.perform (.writeRegister value))

end Op

end Paging
