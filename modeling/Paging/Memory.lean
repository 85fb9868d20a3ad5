import Paging.Memory.Bytes
import Paging.Notice

/-!
# Physical memory

A memory is an array of bytes and a backing, which says where in the array a physical address lies
and which accesses are refused. Words are read and written as eight bytes, least significant first.
A refused access changes nothing.
-/

namespace Paging

inductive FileMode where
  | readOnly
  | readWrite
  /-- A directory, which can be opened for reading but holds no bytes. -/
  | directory
  /-- A device that reads as zeros at every position and takes writes without keeping them. -/
  | zeros
  /-- A stream, which has no positions. -/
  | stream
deriving DecidableEq, Repr

def FileMode.takesWrites : FileMode → Bool
  | readWrite | zeros => true
  | readOnly | directory | stream => false

inductive Backing where
  /-- A buffer that stands in for memory from address zero on, with blocks handed out from `cursor`
  on. -/
  | emulated (cursor : Word)
  /-- A window whose first byte is physical address `base`. -/
  | window (base : Word)
  /-- All of memory at a fixed distance: address `p` is host address `offset + p`, and the array
  holds the host's memory from its address zero on. -/
  | direct (offset : Word)
  /-- A file whose position `p` holds physical address `p`. It grows when written past its end. -/
  | file (mode : FileMode)
deriving DecidableEq, Repr

structure Memory where
  backing : Backing
  bytes : Array UInt8
deriving DecidableEq

namespace Memory

/-- Zeroed emulated memory. The first page is never handed out. -/
def emulated (size : Nat) : Memory := ⟨.emulated 0x1000, Array.replicate size 0⟩

def size (m : Memory) : Nat := m.bytes.size

/-- Where in the array a physical address lies; without bound on either side. -/
def position? (backing : Backing) (address : PhysicalAddress) : Option Nat :=
  match backing with
  | .emulated _ => some address.toNat
  | .window base => if base.toNat ≤ address.toNat then some (address.toNat - base.toNat) else none
  | .direct offset => some (offset + address.word).toNat
  | .file _ => some address.toNat

/-- Where an access of `count` bytes begins in the array, if all of it lies inside. -/
def inside? (m : Memory) (address : PhysicalAddress) (count : Nat) : Option Nat :=
  (position? m.backing address).filter fun start => start + count ≤ m.size

/-- Words are accessed as one unit, at multiples of eight only, where memory is mapped. -/
def alignsWords : Backing → Bool
  | .emulated _ => false
  | .window _ => true
  | .direct _ => true
  | .file _ => false

/-- The access that a word at the address would be is refused before its bounds are looked at. -/
def misaligned (m : Memory) (address : PhysicalAddress) : Bool :=
  alignsWords m.backing && !address.alignedTo 8

def refusal (address : PhysicalAddress) : Refusal := ⟨.physicalAccess address, []⟩

/-- An access to a file reaches beyond what file positions can express. -/
def beyondFile (address : PhysicalAddress) (count : Nat) : Bool :=
  2 ^ 63 ≤ address.toNat + count

/-- Why a write of bytes to a file is refused, if it is: a position that cannot be expressed comes
before the mode of the file, and the mode before where the write ends. There is room for every other
write. -/
def writeFailure? (mode : FileMode) (address : PhysicalAddress) (count : Nat) :
    Option FileFailure :=
  if beyondFile address 0 then some .invalidArgument
  else if mode = .stream then some .illegalSeek
  else if !mode.takesWrites then some .badDescriptor
  else if beyondFile address count then some .invalidArgument
  else none

def readRefusal (address : PhysicalAddress) (count : Nat) (why : FileFailure) : Refusal :=
  ⟨.physicalAccess address, [.readFailed count address why]⟩

def writeRefusal (address : PhysicalAddress) (count : Nat) (why : FileFailure) : Refusal :=
  ⟨.physicalAccess address, [.writeFailed count address why]⟩

/-- Why a read from a file is refused whatever the file holds, if it is. -/
def readFailure? (mode : FileMode) (address : PhysicalAddress) (count : Nat) :
    Option FileFailure :=
  if beyondFile address 0 then some .invalidArgument
  else if mode = .stream then some .illegalSeek
  else if beyondFile address count then some .invalidArgument
  else if mode = .directory then some .isDirectory
  else none

/-- Reads `count` bytes. A file answers an empty read without being asked. -/
def readBytes (m : Memory) (address : PhysicalAddress) (count : Nat) :
    Except Refusal (List UInt8) :=
  match m.backing with
  | .file mode =>
    if count = 0 then .ok []
    else
      match readFailure? mode address count with
      | some why => .error (readRefusal address count why)
      | none =>
        if mode = .zeros then .ok (List.replicate count 0)
        else
          match m.inside? address count with
          | some start => .ok (Bytes.slice m.bytes start (start + count))
          | none => .error (readRefusal address count .endOfFile)
  | _ =>
    match m.inside? address count with
    | some start => .ok (Bytes.slice m.bytes start (start + count))
    | none => .error (refusal address)

/-- Writes bytes. A file takes an empty write without being asked. -/
def writeBytes (m : Memory) (address : PhysicalAddress) (bs : List UInt8) :
    Except Refusal Memory :=
  match m.backing with
  | .file mode =>
    if bs.isEmpty then .ok m
    else
      match writeFailure? mode address bs.length with
      | some why => .error (writeRefusal address bs.length why)
      | none =>
        if mode = .zeros then .ok m
        else
          let start := address.toNat
          let grown := Bytes.grow m.bytes (start + bs.length)
          .ok { m with bytes := Bytes.overwrite grown start bs }
  | _ =>
    match m.inside? address bs.length with
    | some start => .ok { m with bytes := Bytes.overwrite m.bytes start bs }
    | none => .error (refusal address)

def readWord (m : Memory) (address : PhysicalAddress) : Except Refusal Word :=
  if m.misaligned address then .error (refusal address)
  else (m.readBytes address 8).map Bytes.toWord

def writeWord (m : Memory) (address : PhysicalAddress) (w : Word) : Except Refusal Memory :=
  if m.misaligned address then .error (refusal address)
  else m.writeBytes address (Bytes.ofWord w)

/-- The block that the next request of `size` bytes at a multiple of `align` would get, and where
the one after it could begin. All sums are held to 64 bits; an alignment that is no power of two
is taken for the mask that its bits below make. -/
def block? (cursor : Word) (memorySize : Nat) (size align : Word) : Option (Word × Word) :=
  (cursor.add? (align - 1)).bind fun top =>
    let start := top &&& ~~~(align - 1)
    (Word.add? start size).bind fun stop =>
      if memorySize < stop.toNat then none else some (start, stop)

/-- Hands out a block of emulated memory. A request that cannot be met changes nothing. -/
def allocate (m : Memory) (size align : Word) : Option PhysicalAddress × Memory :=
  match m.backing with
  | .emulated cursor =>
    match block? cursor m.size size align with
    | some (start, stop) => (some ⟨start⟩, { m with backing := .emulated stop })
    | none => (none, m)
  | _ => (none, m)

/-- Memory with words stored in it from the start, each at any address inside. -/
def preload (m : Memory) (words : List (PhysicalAddress × Word)) : Memory :=
  words.foldl (fun m (address, w) =>
    match m.inside? address 8 with
    | some start => { m with bytes := Bytes.overwrite m.bytes start (Bytes.ofWord w) }
    | none => m) m

end Memory

end Paging
