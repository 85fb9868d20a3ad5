import Paging.Proofs.Interleaving

/-!
# Edits that cannot race

What each kind of edit does to roots and words (`Program.AtMost`, `Program.Keeps`) rules out that
some of them ever conflict both ways: an edit of entries looks at the root once and never sets it,
`setPagingRoot` does nothing but set it once, and a barrier sets it once, to what it was.
-/

namespace Paging

variable {α β : Type}

/-! ### Counting actions -/

/-- Every action of the program satisfies `P`, and no path through it has more than `k` of those
that count. -/
inductive Program.AtMost (P : Action → Prop) (counts : Action → Bool) : Nat → Program α → Prop where
  | done {k : Nat} {a : α} : AtMost P counts k (.done a)
  | enter {k : Nat} {pid : Pid} {next : Except Error SpaceId → Program α}
      (h : ∀ r, AtMost P counts k (next r)) : AtMost P counts k (.enter pid next)
  | free {k : Nat} {action : Action} {next : action.Reply → Program α} (hp : P action)
      (hc : counts action = false) (h : ∀ r, AtMost P counts k (next r)) :
      AtMost P counts k (.act action next)
  | counted {k : Nat} {action : Action} {next : action.Reply → Program α} (hp : P action)
      (h : ∀ r, AtMost P counts k (next r)) : AtMost P counts (k + 1) (.act action next)

namespace Program.AtMost

variable {P : Action → Prop} {counts : Action → Bool} {j k : Nat} {p : Program α}

theorem mono (h : p.AtMost P counts j) (hle : j ≤ k) : p.AtMost P counts k := by
  induction h generalizing k with
  | done => exact .done
  | enter h ih => exact .enter fun r => ih r hle
  | free hp hc h ih => exact .free hp hc fun r => ih r hle
  | @counted j action next hp h ih =>
    cases k with
    | zero => omega
    | succ k => exact .counted hp fun r => ih r (Nat.le_of_succ_le_succ hle)

theorem bind {f : α → Program β} (hp : p.AtMost P counts j) (hf : ∀ a, (f a).AtMost P counts k) :
    (p.bind f).AtMost P counts (j + k) := by
  induction hp with
  | done => exact (hf _).mono (Nat.le_add_left ..)
  | enter h ih => exact .enter ih
  | free hp hc h ih => exact .free hp hc ih
  | @counted j action next hp h ih =>
    rw [Nat.add_right_comm]
    exact .counted hp ih

theorem advance (h : p.AtMost P counts k) (space : SpaceId) (n : Machine) :
    ∃ j, (p.advance space n).1.AtMost P counts j ∧
      (∀ action, p.action? = some action → P action) ∧
      (p.action?.toList.map n.taken).countP (fun x => counts x.action) + j ≤ k := by
  cases h with
  | done => exact ⟨k, .done, nofun, Nat.le_of_eq (Nat.zero_add k)⟩
  | enter h => exact ⟨k, h _, nofun, Nat.le_of_eq (Nat.zero_add k)⟩
  | @free k action next hp hc h =>
    refine ⟨k, h _, fun _ ha => Option.some.inj ha ▸ hp, ?_⟩
    simp [Program.action?, Machine.taken, hc]
  | @counted k action next hp h =>
    refine ⟨k, h _, fun _ ha => Option.some.inj ha ▸ hp, ?_⟩
    simp only [Program.action?, Option.toList_some, List.map_cons, List.map_nil,
      List.countP_singleton]
    split <;> omega

end Program.AtMost

/-- An operation all of whose actions satisfy `P`, and at most `k` count. -/
def Op.AtMost (P : Action → Prop) (counts : Action → Bool) (k : Nat) (op : Op α) : Prop :=
  Program.AtMost P counts k op.run

namespace Op.AtMost

variable {P : Action → Prop} {counts : Action → Bool} {j k : Nat}

theorem pure (a : α) : AtMost P counts k (Pure.pure a : Op α) := .done

theorem mk_pure (r : Except Error α) : AtMost P counts k (ExceptT.mk (Pure.pure r) : Op α) := .done

theorem bind {op : Op α} {f : α → Op β} (h : AtMost P counts j op)
    (hf : ∀ a, AtMost P counts k (f a)) : AtMost P counts (j + k) (op >>= f) := by
  apply Program.AtMost.bind (f := fun r => ExceptT.bindCont f r) h
  intro r
  cases r with
  | ok a => exact hf a
  | error e => exact .done

theorem lift_run {op : Op α} (h : AtMost P counts k op) :
    AtMost P counts k (ExceptT.lift op.run : Op (Except Error α)) :=
  Program.AtMost.bind (k := 0) (f := fun r => .done (Except.ok r)) h fun _ => .done

theorem holding {pid : Pid} {body : SpaceId → Op α} (hp : P (.release pid))
    (hc : counts (.release pid) = false) (h : ∀ s, AtMost P counts k (body s)) :
    AtMost P counts k (Op.holding pid body) := by
  refine Program.AtMost.enter fun r => ?_
  cases r with
  | error e => exact .done
  | ok s => exact Program.AtMost.bind (k := 0) (h s) fun _ => .free hp hc fun _ => .done

end Op.AtMost

namespace Action

def onRoot : Action → Bool
  | .readRoot _ | .setRoot _ _ => true
  | _ => false

def setsRoot : Action → Bool
  | .setRoot _ _ => true
  | _ => false

def onWord : Action → Bool
  | .readWord _ | .writeWord _ _ => true
  | _ => false

theorem meets_cases {shape : Memory} {b c : Action} (h : b.meets shape c = true) :
    (b.onRoot = true ∧ c.onRoot = true) ∨ (b.onWord = true ∧ c.onWord = true) := by
  cases b <;> cases c <;> simp_all [meets, datum?, Datum.meets, onRoot, onWord]

end Action

theorem Machine.setsRoot_of_changes {n : Machine} {action : Action}
    (h : n.changes action = true) (hr : action.onRoot = true) : action.setsRoot = true := by
  cases action <;> simp_all [changes, Action.setsRoot, Action.onRoot]

/-! ### What edits do -/

namespace Engine

variable (e : Engine) (vaddr : VirtualAddress) {k : Nat}

/-- The actions of an edit of entries, which looks at the root. -/
abbrev AtMostLooks (k : Nat) (op : Op α) : Prop :=
  op.AtMost (fun action => action.setsRoot = false) Action.onRoot k

theorem atMost_note (notice : Notice) : AtMostLooks k (Op.note notice) :=
  Program.AtMost.free rfl rfl fun _ => .done

theorem atMost_descend (levels : List Level) (table : PhysicalAddress) :
    AtMostLooks 0 (e.descend vaddr levels table) := by
  induction levels generalizing table with
  | nil => exact .pure _
  | cons l deeper ih =>
    have hread : AtMostLooks 0 (Op.readWord (e.slotAddress table vaddr l)) :=
      Program.AtMost.free rfl rfl fun _ => .done
    refine hread.bind (k := 0) fun raw => ?_
    dsimp only
    split
    · exact .pure _
    · split
      · exact (atMost_note _).bind (k := 0) fun _ => .pure _
      · exact (ih _).bind (k := 0) fun _ => .pure _

theorem atMost_walk (pid : Pid) : AtMostLooks 1 (e.walk vaddr pid) := by
  refine .holding rfl rfl fun space => ?_
  have hread : AtMostLooks 1 (Op.readRoot space) := Program.AtMost.counted rfl fun _ => .done
  refine hread.bind (k := 0) fun root => ?_
  split
  · exact (atMost_note _).bind (k := 0) fun _ => .pure _
  · exact e.atMost_descend vaddr _ _

theorem atMost_writeLevels (visits : List Visit) (mask : LevelMask)
    (patchFor : Level → EntryPatch) (ls : List Level) (written : LevelMask) :
    AtMostLooks 0 (e.writeLevels visits mask patchFor ls written) := by
  induction ls generalizing written with
  | nil => exact .pure _
  | cons l rest ih =>
    simp only [writeLevels]
    split
    · exact ih written
    · cases reached? visits l with
      | none => exact (atMost_note _).bind (k := 0) fun _ => ih written
      | some v =>
        have hwrite : ∀ w, AtMostLooks 0 (Op.writeWord v.slot w) := fun w =>
          Program.AtMost.free rfl rfl fun _ => .done
        exact (atMost_note _).bind (k := 0) fun _ => (hwrite _).bind (k := 0) fun _ => ih _

theorem atMost_edit (pid : Pid) (mask : LevelMask) (patchFor : Level → EntryPatch) :
    AtMostLooks 1 (e.edit vaddr pid mask patchFor) := by
  refine .holding rfl rfl fun _ => ?_
  refine (e.atMost_walk vaddr pid).bind (k := 0) fun visits => ?_
  refine (e.atMost_writeLevels visits mask patchFor _ _).lift_run.bind (k := 0) fun r => ?_
  have hflush : AtMostLooks 0 (Op.flush vaddr) := Program.AtMost.free rfl rfl fun _ => .done
  exact hflush.bind (k := 0) fun _ => .mk_pure r

end Engine

namespace SpaceEdit

/-- The actions that an edit may take. -/
def allows : SpaceEdit → Action → Bool
  | entries _ _, action => !action.setsRoot
  | setRoot _, action | barrier, action => !action.onWord

/-- Those that it takes only once. -/
def once : SpaceEdit → Action → Bool
  | entries _ _, action | setRoot _, action => action.onRoot
  | barrier, action => action.setsRoot

theorem atMost_perform (d : SpaceEdit) (e : Engine) (pid : Pid) :
    Op.AtMost (fun action => d.allows action = true) d.once 1 (d.perform e pid) := by
  cases d with
  | entries edit vaddr =>
    simp only [perform, EntryEdit.perform_eq, map_eq_pure_bind, bind_assoc, pure_bind, allows,
      Bool.not_eq_true']
    exact (e.atMost_edit vaddr pid _ _).bind (k := 0) fun _ => .pure _
  | setRoot root =>
    simp only [perform, map_eq_pure_bind]
    refine Op.AtMost.bind (j := 1) (k := 0) (.holding rfl rfl fun s => ?_) fun _ => .pure _
    exact Program.AtMost.free rfl rfl fun _ => .counted rfl fun _ => .done
  | barrier =>
    simp only [perform, map_eq_pure_bind]
    refine Op.AtMost.bind (j := 1) (k := 0) (.holding rfl rfl fun s => ?_) fun _ => .pure _
    exact Program.AtMost.free rfl rfl fun _ => .counted rfl fun _ => .done

end SpaceEdit

/-! ### Logs of counted actions -/

namespace Duet

variable {pid : Pid} {space : SpaceId} {shape : Memory} {base : Nat} {post : α → Prop}
  {d d' : Duet α} {p : Party → Program α} {depth : Party → Nat} {n : Machine}

/-- What programs may do is what the log says they did. -/
theorem Sound.log_atMost {P : Party → Action → Prop} {counts : Party → Action → Bool}
    {k : Party → Nat} (h : d.Sound pid space shape base post p depth n)
    (hb : base + 4 < LockTable.countLimit) (hp : ∀ w, (p w).AtMost (P w) (counts w) (k w))
    {turns : List Party} (hplay : d.play turns = some d') :
    (∀ w x, (w, x) ∈ d.log turns → P w x.action ∧ ∃ m, x = Machine.taken m x.action) ∧
      ∀ w, (actsOf w (d.log turns)).countP (fun x => counts w x.action) ≤ k w := by
  induction turns generalizing d p depth n k with
  | nil => exact ⟨nofun, fun w => Nat.zero_le _⟩
  | cons who later ih =>
    obtain ⟨d₁, hlater, hsound, hlog⟩ := h.play_cons hb hplay
    obtain ⟨j, hadvance, haction, hcount⟩ := (hp who).advance space n
    have hrest : ∀ w, (who.set p ((p who).advance space n).1 w).AtMost (P w) (counts w)
        (who.set k j w) := by
      intro w
      rcases w.eq_or_eq_other who with rfl | rfl
      · rwa [Party.set_self, Party.set_self]
      · rw [Party.set_other, Party.set_other]
        exact hp _
    obtain ⟨hmem, hle⟩ := ih hsound hrest hlater
    rw [hlog]
    refine ⟨fun w x hx => ?_, fun w => ?_⟩
    · rcases List.mem_append.mp hx with hx | hx
      · obtain ⟨y, hy, heq⟩ := List.mem_map.mp hx
        obtain ⟨rfl, rfl⟩ := Prod.mk.inj heq
        obtain ⟨action, ha, rfl⟩ := List.mem_map.mp hy
        exact ⟨haction action (Option.mem_toList.mp ha), n, rfl⟩
      · exact hmem w x hx
    · have hw := hle w
      rcases who.eq_or_eq_other w with rfl | rfl
      · rw [Party.set_self] at hw
        rw [actsOf_self, List.countP_append]
        omega
      · rw [Party.other_set] at hw
        rwa [actsOf_other]

theorem counts_eq_false {counts : Taken → Bool} {w : Party} {x y : Taken}
    {rest : List (Party × Taken)} (hcount : (actsOf w ((w, x) :: rest)).countP counts ≤ 1)
    (hx : counts x = true) (hy : (w, y) ∈ rest) : counts y = false := by
  have hmem : y ∈ actsOf w rest := List.mem_filterMap.mpr ⟨(w, y), hy, if_pos rfl⟩
  have hcons : actsOf w ((w, x) :: rest) = x :: actsOf w rest := by simp [actsOf]
  rw [hcons, List.countP_cons, if_pos hx] at hcount
  have hzero : (actsOf w rest).countP counts = 0 := by omega
  exact Bool.eq_false_iff.mpr (List.countP_eq_zero.mp hzero y hmem)

/-- If what conflicts is something that each party does only once, the conflicts go one way. -/
theorem ordered_of_countP (counts : Party → Taken → Bool) {log : List (Party × Taken)}
    (hconflict : ∀ w x y, (w.other, x) ∈ log → (w, y) ∈ log → x.conflicts shape y = true →
      counts w.other x = true ∧ counts w y = true)
    (hcount : ∀ w, (actsOf w log).countP (counts w) ≤ 1) : ∃ who, Ordered shape who log := by
  induction log with
  | nil => exact ⟨.first, .nil⟩
  | cons z rest ih =>
    obtain ⟨w, x⟩ := z
    cases hx : counts w x with
    | true =>
      -- This was the one action of `w` that counts, so that nothing later conflicts.
      have hapart : ∀ a ∈ rest, ∀ b ∈ rest, a.1 = w.other → b.1 = w →
          a.2.conflicts shape b.2 = false := by
        rintro ⟨v, y⟩ hy ⟨u, y'⟩ hy' hv hu
        obtain rfl : v = w.other := hv
        obtain rfl : u = w := hu
        apply Bool.eq_false_iff.mpr
        intro hc
        have hcounts := (hconflict u y y' (List.mem_cons_of_mem _ hy) (List.mem_cons_of_mem _ hy')
          hc).2
        rw [counts_eq_false (hcount u) hx hy'] at hcounts
        cases hcounts
      exact ⟨w, List.pairwise_cons.mpr ⟨fun _ _ hne => absurd hne.symm w.other_ne,
        List.pairwise_of_forall_mem_list hapart⟩⟩
    | false =>
      have hrest : ∀ v, (actsOf v rest).countP (counts v) ≤ 1 := by
        intro v
        refine Nat.le_trans (List.Sublist.countP_le ?_) (hcount v)
        exact (List.sublist_cons_self _ _).filterMap _
      obtain ⟨who, hwho⟩ := ih (fun v y y' hy hy' => hconflict v y y' (List.mem_cons_of_mem _ hy)
        (List.mem_cons_of_mem _ hy')) hrest
      refine ⟨who, List.pairwise_cons.mpr ⟨?_, hwho⟩⟩
      rintro ⟨v, y⟩ hy hw hv
      obtain rfl : v = who := hv
      obtain rfl : w = v.other := hw
      apply Bool.eq_false_iff.mpr
      intro hc
      have hcounts := (hconflict v x y (List.mem_cons_self ..) (List.mem_cons_of_mem _ hy) hc).1
      rw [hx] at hcounts
      cases hcounts

end Duet

/-! ### Programs that keep the root -/

/-- A program that touches no word and sets the root, if at all, to what it is. -/
inductive Program.Keeps (pid : Pid) (space : SpaceId) (root : PhysicalAddress) :
    Program α → Prop where
  | done {a : α} : Keeps pid space root (.done a)
  | enter {next : Except Error SpaceId → Program α} (h : Keeps pid space root (next (.ok space))) :
      Keeps pid space root (.enter pid next)
  | release {next : Unit → Program α} (h : Keeps pid space root (next ())) :
      Keeps pid space root (.act (.release pid) next)
  | note {notice : Notice} {next : Unit → Program α} (h : Keeps pid space root (next ())) :
      Keeps pid space root (.act (.note notice) next)
  | readRoot {next : PhysicalAddress → Program α} (h : Keeps pid space root (next root)) :
      Keeps pid space root (.act (.readRoot space) next)
  | setRoot {next : Unit → Program α} (h : Keeps pid space root (next ())) :
      Keeps pid space root (.act (.setRoot space root) next)

theorem Program.Keeps.advance {pid : Pid} {space : SpaceId} {root : PhysicalAddress}
    {p : Program α} {n : Machine} (h : p.Keeps pid space root) (hroot : n.locks.root space = root) :
    (p.advance space n).1.Keeps pid space root ∧ (p.advance space n).2.locks.root space = root ∧
      ∀ action, p.action? = some action → n.changes action = false := by
  cases h with
  | done => exact ⟨.done, hroot, nofun⟩
  | enter h => exact ⟨h, hroot, nofun⟩
  | release h | note h => exact ⟨h, hroot, fun _ ha => Option.some.inj ha ▸ rfl⟩
  | @readRoot next h =>
    refine ⟨?_, hroot, fun _ ha => Option.some.inj ha ▸ rfl⟩
    show (next (n.locks.root space)).Keeps pid space root
    rwa [hroot]
  | setRoot h =>
    refine ⟨h, ?_, fun _ ha => ?_⟩
    · show (n.locks.setRoot space root).root space = root
      rw [LockTable.root_setRoot, hroot, ite_self]
    · obtain rfl := Option.some.inj ha
      simp [Machine.changes, hroot]

theorem Duet.Sound.log_unchanged {pid : Pid} {space : SpaceId} {shape : Memory} {base : Nat}
    {post : α → Prop} {d d' : Duet α} {p : Party → Program α} {depth : Party → Nat} {n : Machine}
    {root : PhysicalAddress} (h : d.Sound pid space shape base post p depth n)
    (hb : base + 4 < LockTable.countLimit) (hp : ∀ w, (p w).Keeps pid space root)
    (hroot : n.locks.root space = root) {turns : List Party} (hplay : d.play turns = some d') :
    ∀ z ∈ d.log turns, z.2.changed = false := by
  induction turns generalizing d p depth n with
  | nil => exact nofun
  | cons who later ih =>
    obtain ⟨d₁, hlater, hsound, hlog⟩ := h.play_cons hb hplay
    obtain ⟨hadvance, hroot', hstill⟩ := (hp who).advance hroot
    have hrest : ∀ w, (who.set p ((p who).advance space n).1 w).Keeps pid space root := by
      intro w
      rcases w.eq_or_eq_other who with rfl | rfl
      · rwa [Party.set_self]
      · rw [Party.set_other]
        exact hp _
    rw [hlog]
    intro z hz
    rcases List.mem_append.mp hz with hz | hz
    · obtain ⟨y, hy, rfl⟩ := List.mem_map.mp hz
      obtain ⟨action, ha, rfl⟩ := List.mem_map.mp hy
      exact hstill action (Option.mem_toList.mp ha)
    · exact ih hsound hrest hroot' hlater z hz

/-! ### Pairs of edits -/

namespace SpaceEdit

/-- The pairs of edits of a space with the given root that can come apart. -/
def races (root : PhysicalAddress) : SpaceEdit → SpaceEdit → Bool
  | entries _ _, entries _ _ => true
  | setRoot root', barrier | barrier, setRoot root' => decide (root' ≠ root)
  | _, _ => false

theorem races_comm (root : PhysicalAddress) (d d' : SpaceEdit) :
    d.races root d' = d'.races root d := by
  cases d <;> cases d' <;> rfl

/-- An edit that leaves the root as it is, and words out. -/
def keepsRoot (root : PhysicalAddress) : SpaceEdit → Bool
  | entries _ _ => false
  | setRoot root' => decide (root' = root)
  | barrier => true

theorem keeps_perform {d : SpaceEdit} {root : PhysicalAddress} (h : d.keepsRoot root = true)
    (e : Engine) (pid : Pid) (space : SpaceId) :
    (d.perform e pid).run.Keeps pid space root := by
  cases d with
  | entries edit vaddr => cases h
  | setRoot root' =>
    obtain rfl : root' = root := of_decide_eq_true h
    exact .enter (.note (.setRoot (.release .done)))
  | barrier => exact .enter (.readRoot (.setRoot (.release .done)))

/-- What two edits that do not race and change the root conflict about, each does once. -/
theorem once_of_conflicts {d d' : SpaceEdit} {root : PhysicalAddress} {shape : Memory}
    {m m' : Machine} {b c : Action} (hraces : d.races root d' = false)
    (hroot : (d.keepsRoot root && d'.keepsRoot root) = false) (hb : d.allows b = true)
    (hc : d'.allows c = true)
    (h : (m.taken b).conflicts shape (m'.taken c) = true) :
    d.once b = true ∧ d'.once c = true := by
  simp only [Taken.conflicts, Machine.taken, Bool.and_eq_true, Bool.or_eq_true] at h
  obtain ⟨hmeets, hchanged⟩ := h
  rcases Action.meets_cases hmeets with ⟨hbr, hcr⟩ | ⟨hbw, hcw⟩
  · have hset : b.setsRoot = true ∨ c.setsRoot = true :=
      hchanged.imp (Machine.setsRoot_of_changes · hbr) (Machine.setsRoot_of_changes · hcr)
    cases d <;> cases d' <;> simp_all [races, keepsRoot, allows, once]
  · cases d <;> cases d' <;> simp_all [races, allows]

end SpaceEdit

end Paging
