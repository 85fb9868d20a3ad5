import Paging.EntrySet

/-!
# Maps over processes

A finite map from process identifiers, listed in ascending order. The lemmas say what a look-up
finds after each change.
-/

namespace Paging

structure PidMap (α : Type) where
  entries : List (Pid × α)
deriving DecidableEq

namespace PidMap

variable {α : Type}

def empty : PidMap α := ⟨[]⟩

def findIn (pid : Pid) : List (Pid × α) → Option α
  | [] => none
  | (k, a) :: rest => if k = pid then some a else findIn pid rest

def insertIn (pid : Pid) (a : α) : List (Pid × α) → List (Pid × α)
  | [] => [(pid, a)]
  | (k, b) :: rest =>
    if pid < k then (pid, a) :: (k, b) :: rest
    else if k = pid then (pid, a) :: rest
    else (k, b) :: insertIn pid a rest

def find? (m : PidMap α) (pid : Pid) : Option α := findIn pid m.entries

def insert (m : PidMap α) (pid : Pid) (a : α) : PidMap α := ⟨insertIn pid a m.entries⟩

def erase (m : PidMap α) (pid : Pid) : PidMap α := ⟨m.entries.filter fun e => e.1 != pid⟩

theorem findIn_insertIn (pid q : Pid) (a : α) (l : List (Pid × α)) :
    findIn q (insertIn pid a l) = if pid = q then some a else findIn q l := by
  induction l with
  | nil => simp [insertIn, findIn]
  | cons e rest ih =>
    obtain ⟨k, b⟩ := e
    simp only [insertIn]
    split
    · simp only [findIn]
    · split
      · rename_i h
        subst h
        simp only [findIn]
        split <;> rfl
      · simp only [findIn, ih]
        grind

theorem findIn_filter (pid q : Pid) (l : List (Pid × α)) :
    findIn q (l.filter fun e => e.1 != pid) = if pid = q then none else findIn q l := by
  induction l with
  | nil => simp [findIn]
  | cons e rest ih =>
    obtain ⟨k, b⟩ := e
    by_cases hk : k = pid
    · simp only [hk, bne_self_eq_false, Bool.false_eq_true, not_false_eq_true,
        List.filter_cons_of_neg, findIn, ih]
      grind
    · simp only [bne_iff_ne, ne_eq, hk, not_false_eq_true, List.filter_cons_of_pos, findIn, ih]
      grind

theorem find?_empty (pid : Pid) : (empty : PidMap α).find? pid = none := rfl

theorem find?_insert (m : PidMap α) (pid q : Pid) (a : α) :
    (m.insert pid a).find? q = if pid = q then some a else m.find? q :=
  findIn_insertIn pid q a m.entries

theorem find?_erase (m : PidMap α) (pid q : Pid) :
    (m.erase pid).find? q = if pid = q then none else m.find? q :=
  findIn_filter pid q m.entries

end PidMap

end Paging
