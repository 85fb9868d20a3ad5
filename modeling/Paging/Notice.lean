import Paging.Architecture
import Paging.Request

/-!
# Notices

What the library tells its log, by cause, with the severity and the wording of each. A `Refusal` is
an error together with the notice that its place of origin leaves behind.
-/

namespace Paging

inductive Severity where
  | warn
  | info
  | debug
  | trace
deriving DecidableEq, Repr

namespace Severity

def name : Severity → String
  | warn => "WARN"
  | info => "INFO"
  | debug => "DEBUG"
  | trace => "TRACE"

def rank : Severity → Nat
  | warn => 0
  | info => 1
  | debug => 2
  | trace => 3

/-- A log opened up to `limit` shows a notice of this severity. -/
def shownUpTo (s limit : Severity) : Bool := s.rank ≤ limit.rank

end Severity

/-- Why a positioned access to a file, or opening it, fails. -/
inductive FileFailure where
  | endOfFile
  | notFound
  | inputOutput
  | noSuchDevice
  | badDescriptor
  | accessDenied
  | notDirectory
  | isDirectory
  | invalidArgument
  | tooLarge
  | noSpace
  | illegalSeek
  | nameTooLong
deriving DecidableEq, Repr

namespace FileFailure

/-- The number the operating system gives the failure, if it comes from there. -/
def code? : FileFailure → Option Nat
  | endOfFile => none
  | notFound => some 2
  | inputOutput => some 5
  | noSuchDevice => some 6
  | badDescriptor => some 9
  | accessDenied => some 13
  | notDirectory => some 20
  | isDirectory => some 21
  | invalidArgument => some 22
  | tooLarge => some 27
  | noSpace => some 28
  | illegalSeek => some 29
  | nameTooLong => some 36

def all : List FileFailure :=
  [endOfFile, notFound, inputOutput, noSuchDevice, badDescriptor, accessDenied, notDirectory,
    isDirectory, invalidArgument, tooLarge, noSpace, illegalSeek, nameTooLong]

/-- The failure that the operating system means by a number. -/
def ofCode? (code : Nat) : Option FileFailure := all.find? (·.code? == some code)

def description : FileFailure → String
  | endOfFile => "failed to fill whole buffer"
  | notFound => "No such file or directory"
  | inputOutput => "Input/output error"
  | noSuchDevice => "No such device or address"
  | badDescriptor => "Bad file descriptor"
  | accessDenied => "Permission denied"
  | notDirectory => "Not a directory"
  | isDirectory => "Is a directory"
  | invalidArgument => "Invalid argument"
  | tooLarge => "File too large"
  | noSpace => "No space left on device"
  | illegalSeek => "Illegal seek"
  | nameTooLong => "File name too long"

def kindName : FileFailure → String
  | endOfFile => "UnexpectedEof"
  | notFound => "NotFound"
  | inputOutput => "Uncategorized"
  | noSuchDevice => "Uncategorized"
  | badDescriptor => "Uncategorized"
  | accessDenied => "PermissionDenied"
  | notDirectory => "NotADirectory"
  | isDirectory => "IsADirectory"
  | invalidArgument => "InvalidInput"
  | tooLarge => "FileTooLarge"
  | noSpace => "StorageFull"
  | illegalSeek => "NotSeekable"
  | nameTooLong => "InvalidFilename"

def message (f : FileFailure) : String :=
  match f.code? with
  | none => f.description
  | some code => f.description ++ " (os error " ++ decimal code ++ ")"

def debugText (f : FileFailure) : String :=
  let fields : List (String × String) :=
    match f.code? with
    | none => [("kind", f.kindName), ("message", quoted f.description)]
    | some code =>
      [("code", decimal code), ("kind", f.kindName), ("message", quoted f.description)]
  Request.record (if f.code?.isSome then "Os" else "Error") fields

end FileFailure

inductive Notice where
  | engineReady (arch : Architecture) (levels bits pageSize : Nat)
  | noRoot (pid : Pid)
  | hugePage (vaddr : VirtualAddress) (level : Level)
  | levelSkipped (level : Level)
  | levelUpdated (level : Level) (slot : PhysicalAddress) (before after : Word)
  | rootChanged (pid : Pid) (root : PhysicalAddress)
  | noRegister (arch : Architecture)
  | noEntryMemoryType
  | noRegisterOnRiscv
  | notHeld (pid : Pid)
  | notAcquired (pid : Pid)
  | unlocked (pid : Pid)
  | countOverflow (pid : Pid)
  | unknownProcess (pid : Pid)
  | waiting (pid : Pid)
  | unknownStrategy (id : UInt8)
  | noKernelStrategy
  | symbolMissing (symbol : String)
  | readFailed (bytes : Nat) (address : PhysicalAddress) (why : FileFailure)
  | writeFailed (bytes : Nat) (address : PhysicalAddress) (why : FileFailure)
  | dispatching (request : Request)
  | requestFailed (error : Error)
deriving DecidableEq

namespace Notice

def severity : Notice → Severity
  | noRegister _ | noEntryMemoryType | noRegisterOnRiscv | notHeld _ | notAcquired _
  | countOverflow _ | unknownProcess _ | unknownStrategy _ | noKernelStrategy | symbolMissing _
  | requestFailed _ => .warn
  | engineReady .. | noRoot _ | levelSkipped _ | levelUpdated .. | rootChanged .. | waiting _
  | readFailed .. | writeFailed .. => .debug
  | hugePage .. | unlocked _ | dispatching _ => .trace

def text : Notice → String
  | engineReady arch levels bits pageSize =>
    "engine for " ++ arch.debugText ++ " with " ++ decimal levels ++ " levels, " ++ decimal bits ++
      "-bit addresses, " ++ decimal pageSize ++ " byte pages"
  | noRoot pid => "pid " ++ decimal pid.toNat ++ " has no paging root"
  | hugePage vaddr level => vaddr.text ++ " is mapped by a huge page at " ++ level.name
  | levelSkipped level => "skipping " ++ level.name ++ ": not reached by the walk"
  | levelUpdated level slot before after =>
    "updating " ++ level.name ++ " at " ++ slot.text ++ ": " ++ hex before ++ " -> " ++ hex after
  | rootChanged pid root =>
    "setting paging root of pid " ++ decimal pid.toNat ++ " to " ++ root.text
  | noRegister arch => "no memory-type register configured for " ++ arch.debugText
  | noEntryMemoryType => "memory types are not available on standard RISC-V"
  | noRegisterOnRiscv => "RISC-V has no memory-type register"
  | notHeld pid => "tried to release address space of pid " ++ decimal pid.toNat ++
      " that is not held"
  | notAcquired pid => "tried to release address space of pid " ++ decimal pid.toNat ++
      " before it was acquired"
  | unlocked pid => "address space of pid " ++ decimal pid.toNat ++ " unlocked"
  | countOverflow pid => "failed locking pid " ++ decimal pid.toNat ++
      " due to reference count overflow"
  | unknownProcess pid => "no address space for pid " ++ decimal pid.toNat
  | waiting pid => "address space of pid " ++ decimal pid.toNat ++ " is held elsewhere, waiting"
  | unknownStrategy id => "unknown TLB invalidation strategy " ++ decimal id.toNat
  | noKernelStrategy => "kernel TLB invalidation is not available"
  | symbolMissing symbol => "could not resolve `" ++ symbol ++ "`"
  | readFailed bytes address why =>
    "read of " ++ decimal bytes ++ " bytes at " ++ address.text ++ " failed: " ++ why.message
  | writeFailed bytes address why =>
    "write of " ++ decimal bytes ++ " bytes at " ++ address.text ++ " failed: " ++ why.message
  | dispatching request => "dispatching " ++ request.debugText
  | requestFailed error => "request failed: " ++ error.message

end Notice

/-- An error and what the log is told where it arises. -/
structure Refusal where
  error : Error
  notices : List Notice
deriving DecidableEq

end Paging
