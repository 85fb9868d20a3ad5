import Paging.Proofs.Effects
import Paging.Proofs.Traces

/-!
# The course of an edit

On every path an edit does the same things in the same order: it enters, walks, writes, invalidates
the address and gives back its reference (`EntryEdit.path_perform`). If it cannot enter it does
nothing else, and if the walk fails it only gives back the reference. How the writes went makes no
difference to what comes after them.
-/

namespace Paging

variable {α β : Type}

namespace Performed

/-- A step of a walk. -/
def isLook : Performed → Bool
  | entered _ _ | acted (.release _) _ | acted (.readRoot _) _ | acted (.readWord _) _
  | acted (.note _) _ => true
  | _ => false

/-- A step of writing levels. -/
def isStore : Performed → Bool
  | acted (.writeWord _ _) _ | acted (.note _) _ => true
  | _ => false

def isFlush : Performed → Bool
  | acted (.flush _) _ => true
  | _ => false

def setsRoot : Performed → Bool
  | acted (.setRoot _ _) _ => true
  | _ => false

theorem of_isLook {x : Performed} (h : x.isLook = true) :
    x.isFlush = false ∧ x.setsRoot = false := by
  cases x with
  | entered pid reply => exact ⟨rfl, rfl⟩
  | acted action reply => cases action <;> first | exact ⟨rfl, rfl⟩ | cases h

theorem of_isStore {x : Performed} (h : x.isStore = true) :
    x.isFlush = false ∧ x.setsRoot = false := by
  cases x with
  | entered pid reply => cases h
  | acted action reply => cases action <;> first | exact ⟨rfl, rfl⟩ | cases h

end Performed

/-! ### What is on every path -/

/-- Everything that the operation may perform satisfies `P`. -/
def Op.Only (P : Performed → Bool) (op : Op α) : Prop :=
  ∀ trace r, op.run.Path trace r → ∀ x ∈ trace, P x = true

namespace Op.Only

variable {P Q : Performed → Bool}

theorem mono {op : Op α} (h : Only P op) (hpq : ∀ x, P x = true → Q x = true) : Only Q op :=
  fun trace r hpath x hx => hpq x (h trace r hpath x hx)

theorem mk_pure (r : Except Error α) : Only P (ExceptT.mk (Pure.pure r) : Op α) := by
  intro trace r hpath
  cases hpath
  exact nofun

theorem pure (a : α) : Only P (Pure.pure a : Op α) := mk_pure (.ok a)

theorem bind {op : Op α} {f : α → Op β} (h : Only P op) (hf : ∀ a, Only P (f a)) :
    Only P (op >>= f) := by
  intro trace r hpath x hx
  obtain ⟨err, hpath, _⟩ | ⟨a, first, rest, hfirst, hrest, rfl⟩ := path_bind hpath
  · exact h _ _ hpath x hx
  · rcases List.mem_append.mp hx with hx | hx
    · exact h _ _ hfirst x hx
    · exact hf a _ _ hrest x hx

theorem lift_run {op : Op α} (h : Only P op) :
    Only P (ExceptT.lift op.run : Op (Except Error α)) := by
  intro trace r hpath
  obtain ⟨result, hpath, _⟩ := path_lift hpath
  exact h _ _ hpath

theorem act {op : Op α} (action : Action) (g : action.Reply → Except Error α)
    (hop : op.run = .act action fun r => .done (g r))
    (h : ∀ reply, P (.acted action reply) = true) : Only P op := by
  intro trace r hpath x hx
  obtain ⟨reply, rfl, _⟩ := path_act hop hpath
  rw [List.mem_singleton.mp hx]
  exact h reply

theorem note {n : Notice} (h : P (.acted (.note n) ()) = true) : Only P (Op.note n) :=
  .act (.note n) .ok rfl fun _ => h

theorem readRoot {s : SpaceId} (h : ∀ root, P (.acted (.readRoot s) root) = true) :
    Only P (Op.readRoot s) :=
  .act (.readRoot s) .ok rfl h

theorem holding {pid : Pid} {body : SpaceId → Op α}
    (hen : ∀ reply, P (.entered pid reply) = true) (hrel : P (.acted (.release pid) ()) = true)
    (h : ∀ s, Only P (body s)) : Only P (Op.holding pid body) := by
  intro trace r hpath x hx
  obtain ⟨err, rfl, _⟩ | ⟨space, inside, hinside, rfl⟩ := path_holding hpath
  · rw [List.mem_singleton.mp hx]
    exact hen _
  · rcases List.mem_append.mp hx with hx | hx
    · rcases List.mem_cons.mp hx with rfl | hx
      · exact hen _
      · exact h space _ _ hinside x hx
    · rw [List.mem_singleton.mp hx]
      exact hrel

theorem map {op : Op α} (f : α → β) (h : Only P op) : Only P (f <$> op) := by
  rw [map_eq_pure_bind]
  exact h.bind fun _ => .pure _

end Op.Only

namespace Engine

variable (e : Engine) (vaddr : VirtualAddress)

theorem only_descend (levels : List Level) (table : PhysicalAddress) :
    Op.Only Performed.isLook (e.descend vaddr levels table) := by
  induction levels generalizing table with
  | nil => exact .pure _
  | cons l deeper ih =>
    have hread : Op.Only Performed.isLook (Op.readWord (e.slotAddress table vaddr l)) :=
      .act (.readWord _) id rfl fun _ => rfl
    refine hread.bind fun raw => ?_
    dsimp only
    split
    · exact .pure _
    · split
      · exact (Op.Only.note rfl).bind fun _ => .pure _
      · exact (ih _).bind fun _ => .pure _

theorem only_walk (pid : Pid) : Op.Only Performed.isLook (e.walk vaddr pid) := by
  refine .holding (fun _ => rfl) rfl fun space => ?_
  refine (Op.Only.readRoot fun _ => rfl).bind fun root => ?_
  split
  · exact (Op.Only.note rfl).bind fun _ => .pure _
  · exact e.only_descend vaddr _ _

theorem only_writeLevels (visits : List Visit) (mask : LevelMask) (patchFor : Level → EntryPatch)
    (ls : List Level) (written : LevelMask) :
    Op.Only Performed.isStore (e.writeLevels visits mask patchFor ls written) := by
  induction ls generalizing written with
  | nil => exact .pure _
  | cons l rest ih =>
    have hwrite : ∀ a w, Op.Only Performed.isStore (Op.writeWord a w) := fun a w =>
      .act (.writeWord a w) id rfl fun _ => rfl
    simp only [writeLevels]
    split
    · exact ih written
    · cases reached? visits l with
      | none => exact (Op.Only.note rfl).bind fun _ => ih written
      | some v => exact (Op.Only.note rfl).bind fun _ => (hwrite _ _).bind fun _ => ih _

end Engine

/-! ### Edits -/

namespace EntryEdit

/-- What an edit performs from beginning to end, with its answer. -/
inductive Course (d : EntryEdit) (e : Engine) (vaddr : VirtualAddress) (pid : Pid) :
    List Performed → Except Error EditReport → Prop where
  /-- The space cannot be entered. -/
  | refused (err : Error) : Course d e vaddr pid [.entered pid (.error err)] (.error err)
  /-- The walk fails. -/
  | lost {space : SpaceId} {walk : List Performed} {err : Error}
      (hwalk : (e.walk vaddr pid).run.Path walk (.error err))
      (hlook : ∀ x ∈ walk, x.isLook = true) :
      Course d e vaddr pid (.entered pid (.ok space) :: walk ++ [.acted (.release pid) ()])
        (.error err)
  /-- The address is invalidated after the last write, whether or not that went well. -/
  | walked {space : SpaceId} {walk writes : List Performed} {visits : List Visit}
      {result : Except Error LevelMask}
      (hwalk : (e.walk vaddr pid).run.Path walk (.ok visits))
      (hlook : ∀ x ∈ walk, x.isLook = true)
      (hwrites : (e.writeLevels visits d.mask d.patchFor Level.all .none).run.Path writes result)
      (hstore : ∀ x ∈ writes, x.isStore = true) :
      Course d e vaddr pid
        (.entered pid (.ok space) :: walk ++ writes ++
          [.acted (.flush vaddr) (), .acted (.release pid) ()])
        (result.map d.report)

variable {d : EntryEdit} {e : Engine} {vaddr : VirtualAddress} {pid : Pid}
  {trace : List Performed} {r : Except Error EditReport}

/-- A write that failed is an answer to be given later, so that the invalidation comes next in any
case. -/
theorem path_stored {visits : List Visit} {result : Except Error LevelMask}
    (h : Program.Path (ExceptT.run
      (ExceptT.lift (e.writeLevels visits d.mask d.patchFor Level.all .none).run >>= fun result =>
        Op.flush vaddr >>= fun _ => ExceptT.mk (pure result))) trace result) :
    ∃ writes, (e.writeLevels visits d.mask d.patchFor Level.all .none).run.Path writes result ∧
      trace = writes ++ [.acted (.flush vaddr) ()] := by
  obtain ⟨err, hlift, _⟩ | ⟨written, writes, rest, hlift, hrest, rfl⟩ := Op.path_bind h
  · obtain ⟨_, _, hreply⟩ := Op.path_lift hlift
    cases hreply
  · obtain ⟨_, hwrites, hreply⟩ := Op.path_lift hlift
    cases hreply
    obtain ⟨err, hflush, _⟩ | ⟨_, flush, last, hflush, hlast, rfl⟩ := Op.path_bind hrest
    · obtain ⟨_, _, hreply⟩ := Op.path_act (a := .flush vaddr) (g := .ok) rfl hflush
      cases hreply
    · obtain ⟨_, rfl, _⟩ := Op.path_act (a := .flush vaddr) (g := .ok) rfl hflush
      cases hlast
      exact ⟨writes, hwrites, rfl⟩

/-- Things come in this order on every path, whatever is replied. -/
theorem path_perform (h : (d.perform e vaddr pid).run.Path trace r) :
    d.Course e vaddr pid trace r := by
  rw [perform_eq] at h
  obtain ⟨result, hedit, rfl⟩ := Op.path_bind_pure h
  obtain ⟨err, rfl, rfl⟩ | ⟨space, inside, hinside, rfl⟩ := Op.path_holding hedit
  · exact .refused err
  · obtain ⟨err, hwalk, rfl⟩ | ⟨visits, walk, rest, hwalk, hrest, rfl⟩ := Op.path_bind hinside
    · exact .lost hwalk (e.only_walk vaddr pid _ _ hwalk)
    · obtain ⟨writes, hwrites, rfl⟩ := path_stored hrest
      have hcourse : d.Course e vaddr pid (.entered pid (.ok space) :: walk ++ writes ++ _) _ :=
        .walked hwalk (e.only_walk vaddr pid _ _ hwalk) hwrites
          (e.only_writeLevels _ _ _ _ _ _ _ hwrites)
      simpa only [List.append_assoc, List.cons_append, List.nil_append] using hcourse

end EntryEdit

end Paging
