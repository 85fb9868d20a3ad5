import Paging.Word
import Paging.Text.Quoted

/-!
# Levels

The five places a page table can have in the hierarchy, root first, whether or not a given geometry
uses them; one value per level (`PerLevel`); and sets of levels (`LevelMask`).
-/

namespace Paging

/-- A page-table level, named from the root towards the leaf. -/
inductive Level where
  | pgd
  | p4d
  | pud
  | pmd
  | pte
deriving DecidableEq, Repr

namespace Level

/-- All levels, root first. -/
def all : List Level := [pgd, p4d, pud, pmd, pte]

/-- The position of a level in root-to-leaf order. -/
def index : Level → Nat
  | pgd => 0
  | p4d => 1
  | pud => 2
  | pmd => 3
  | pte => 4

def name : Level → String
  | pgd => "PGD"
  | p4d => "P4D"
  | pud => "PUD"
  | pmd => "PMD"
  | pte => "PTE"

/-- The level whose table holds the entries of base pages, in every geometry. -/
def last : Level := pte

/-- The levels below this one, root first. -/
def below : Level → List Level
  | pgd => [p4d, pud, pmd, pte]
  | p4d => [pud, pmd, pte]
  | pud => [pmd, pte]
  | pmd => [pte]
  | pte => []

theorem mem_all (l : Level) : l ∈ all := by
  cases l <;> decide

end Level

/-- One value for every level. -/
structure PerLevel (α : Type) where
  pgd : α
  p4d : α
  pud : α
  pmd : α
  pte : α
deriving DecidableEq, Repr

namespace PerLevel

variable {α β : Type}

def get (v : PerLevel α) : Level → α
  | .pgd => v.pgd
  | .p4d => v.p4d
  | .pud => v.pud
  | .pmd => v.pmd
  | .pte => v.pte

def set (v : PerLevel α) (l : Level) (a : α) : PerLevel α :=
  match l with
  | .pgd => { v with pgd := a }
  | .p4d => { v with p4d := a }
  | .pud => { v with pud := a }
  | .pmd => { v with pmd := a }
  | .pte => { v with pte := a }

/-- The same value at every level. -/
def all (a : α) : PerLevel α := ⟨a, a, a, a, a⟩

def toList (v : PerLevel α) : List α := Level.all.map v.get

@[simp] theorem get_all (a : α) (l : Level) : (all a).get l = a := by
  cases l <;> rfl

theorem get_set (v : PerLevel α) (l m : Level) (a : α) :
    (v.set l a).get m = if m = l then a else v.get m := by
  cases l <;> cases m <;> rfl

theorem ext_get {v w : PerLevel α} (h : ∀ l, v.get l = w.get l) : v = w := by
  cases v
  cases w
  have h1 := h .pgd
  have h2 := h .p4d
  have h3 := h .pud
  have h4 := h .pmd
  have h5 := h .pte
  simp_all [get]

end PerLevel

/-- A set of levels as one bit per level. Bits above the fifth are kept and select nothing. -/
structure LevelMask where
  bits : UInt8
deriving DecidableEq, Repr

namespace LevelMask

def none : LevelMask := ⟨0⟩

def all : LevelMask := ⟨0x1f⟩

def single (l : Level) : LevelMask := ⟨1 <<< UInt8.ofNat l.index⟩

def has (m : LevelMask) (l : Level) : Bool := m.bits.toNat.testBit l.index

def union (m n : LevelMask) : LevelMask := ⟨m.bits ||| n.bits⟩

def insert (m : LevelMask) (l : Level) : LevelMask := m.union (single l)

def isEmpty (m : LevelMask) : Bool := m.bits == 0

/-- The mask without the bits that name no level. -/
def known (m : LevelMask) : LevelMask := ⟨m.bits &&& all.bits⟩

def isAll (m : LevelMask) : Bool := m.bits &&& all.bits == all.bits

def levels (m : LevelMask) : List Level := Level.all.filter m.has

def debugText (m : LevelMask) : String :=
  FlagSet.text "LevelMask" (Level.all.map Level.name) m.bits.toNat

theorem has_none (l : Level) : none.has l = false := by
  cases l <;> decide

theorem has_single (l m : Level) : (single l).has m = decide (m = l) := by
  cases l <;> cases m <;> decide

theorem has_union (m n : LevelMask) (l : Level) : (m.union n).has l = (m.has l || n.has l) := by
  simp [has, union]

theorem has_insert (m : LevelMask) (l k : Level) :
    (m.insert l).has k = (m.has k || decide (k = l)) := by
  rw [insert, has_union, has_single]

end LevelMask

end Paging
