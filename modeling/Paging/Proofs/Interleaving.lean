import Paging.Proofs.Conflicts

/-!
# Callers that take turns

Two programs on one machine, each moving by atomic steps in whatever order (`Duet.play`). While the
process can be entered at once, neither ever waits for the other (`Sound.turn`): what keeps their
work apart is then the order of their actions alone. If no action of the one that conflicts with an
action of the other comes after it, the two end as if the one had run to its end before the other
began (`Sound.sorted`).
-/

namespace Paging

variable {α : Type} {pid : Pid} {space : SpaceId} {shape : Memory} {base : Nat} {post : α → Prop}

/-! ### Turns -/

inductive Party where
  | first
  | second
deriving DecidableEq

namespace Party

def other : Party → Party
  | first => second
  | second => first

theorem eq_or_eq_other (w who : Party) : w = who ∨ w = who.other := by
  cases w <;> cases who <;> decide

theorem other_ne (who : Party) : who.other ≠ who := by cases who <;> decide

/-- What each party has, after one of them got something else. -/
def set {β : Type} (who : Party) (f : Party → β) (b : β) : Party → β :=
  fun w => if w = who then b else f w

variable {β : Type} (who : Party) (f : Party → β) (b : β)

theorem set_self : who.set f b who = b := if_pos rfl

theorem set_other : who.set f b who.other = f who.other := if_neg who.other_ne

theorem other_set : who.other.set f b who = f who := if_neg who.other_ne.symm

end Party

structure Duet (α : Type) where
  callers : Party → Caller α
  machine : Machine

namespace Duet

/-- One of them takes a step; none when it has ended or has to wait. -/
def turn (d : Duet α) (who : Party) : Option (Duet α) :=
  ((d.callers who).step d.machine).map fun now => ⟨who.set d.callers now.reply, now.machine⟩

def play : List Party → Duet α → Option (Duet α)
  | [], d => some d
  | who :: later, d => (d.turn who).bind (play later)

def entry (d : Duet α) (who : Party) : List (Party × Taken) :=
  (d.callers who).rest.action?.toList.map fun action => (who, d.machine.taken action)

def log : List Party → Duet α → List (Party × Taken)
  | [], _ => []
  | who :: later, d =>
    match d.turn who with
    | none => []
    | some d' => d.entry who ++ log later d'

/-- Where the two conflict, the one comes first. -/
def Ordered (shape : Memory) (who : Party) (log : List (Party × Taken)) : Prop :=
  log.Pairwise fun x y => x.1 = who.other → y.1 = who → x.2.conflicts shape y.2 = false

instance (shape : Memory) (who : Party) (log : List (Party × Taken)) :
    Decidable (Ordered shape who log) :=
  inferInstanceAs (Decidable (log.Pairwise _))

end Duet

/-- A caller that is about to go on with a disciplined program. -/
structure Caller.Follows (pid : Pid) (space : SpaceId) (shape : Memory) (post : α → Prop)
    (c : Caller α) (p : Program α) (depth : Nat) : Prop where
  fresh : c = .fresh p
  guarded : p.Guarded pid space shape 0 post depth
  depth_le : depth ≤ 2

namespace Duet

/-- Both callers are where their programs are by themselves, the machine is as `n` but for the
references, and these can still be handed out. -/
structure Sound (pid : Pid) (space : SpaceId) (shape : Memory) (base : Nat) (post : α → Prop)
    (d : Duet α) (p : Party → Program α) (depth : Party → Nat) (n : Machine) : Prop where
  follows : ∀ w, (d.callers w).Follows pid space shape post (p w) (depth w)
  ready : d.machine.locks.Ready pid space (base + depth .first + depth .second)
  data : d.machine.SameData n
  shape : shape.SameShape n.memory

variable {d d' : Duet α} {p : Party → Program α} {depth : Party → Nat} {n : Machine}

/-- A caller that has not ended can take its turn, and it is a step of its program. -/
theorem Sound.turn (h : d.Sound pid space shape base post p depth n) (who : Party)
    (hu : (p who).finished = false) (hb : base + 4 < LockTable.countLimit) :
    ∃ d', d.turn who = some d' ∧
      d'.Sound pid space shape base post (who.set p ((p who).advance space n).1)
        (who.set depth ((p who).depthAfter (depth who))) ((p who).advance space n).2 := by
  obtain ⟨hfresh, hguarded, hle⟩ := h.follows who
  have hother := (h.follows who.other).depth_le
  have hready : d.machine.locks.Ready pid space (base + depth who.other + depth who) := by
    have hsum : base + depth who.other + depth who = base + depth .first + depth .second := by
      cases who
      · exact Nat.add_right_comm ..
      · rfl
    rw [hsum]
    exact h.ready
  obtain ⟨now, hstep, hreply, hdata, hready'⟩ :=
    step_guarded hguarded hu hready (by omega) h.data h.shape
  obtain ⟨hguarded', hshape⟩ := hguarded.advance h.shape
  refine ⟨⟨who.set d.callers now.reply, now.machine⟩, ?_, ?_, ?_, hdata, hshape⟩
  · simp only [Duet.turn, hfresh, hstep, Option.map_some]
  · intro w
    show (who.set d.callers now.reply w).Follows pid space shape post _ _
    rcases w.eq_or_eq_other who with rfl | rfl
    · rw [Party.set_self, Party.set_self, Party.set_self]
      exact ⟨hreply, hguarded', hguarded.depthAfter_le hle⟩
    · rw [Party.set_other, Party.set_other, Party.set_other]
      exact h.follows _
  · have hsum : base + who.set depth ((p who).depthAfter (depth who)) .first +
          who.set depth ((p who).depthAfter (depth who)) .second =
        base + depth who.other + (p who).depthAfter (depth who) := by
      cases who
      · exact Nat.add_right_comm ..
      · rfl
    rw [hsum]
    exact hready'

theorem Sound.unfinished (h : d.Sound pid space shape base post p depth n) {who : Party}
    (hturn : d.turn who = some d') : (p who).finished = false := by
  cases hp : p who with
  | done a => simp [Duet.turn, (h.follows who).fresh, hp, Caller.step, Caller.fresh] at hturn
  | act action next | enter q next => rfl

theorem Sound.entry_eq (h : d.Sound pid space shape base post p depth n) (who : Party) :
    d.entry who = ((p who).action?.toList.map n.taken).map (Prod.mk who) := by
  have hrest : (d.callers who).rest = p who := by rw [(h.follows who).fresh]; rfl
  simp only [entry, hrest, List.map_map]
  exact List.map_congr_left fun action _ => congrArg (Prod.mk who) (h.data.taken action)

/-- A play begins with a step of a program, and goes on from there. -/
theorem Sound.play_cons (h : d.Sound pid space shape base post p depth n)
    (hb : base + 4 < LockTable.countLimit) {who : Party} {later : List Party}
    (hplay : d.play (who :: later) = some d') :
    ∃ d₁ : Duet α, d₁.play later = some d' ∧
      d₁.Sound pid space shape base post (who.set p ((p who).advance space n).1)
        (who.set depth ((p who).depthAfter (depth who))) ((p who).advance space n).2 ∧
      d.log (who :: later) =
        ((p who).action?.toList.map n.taken).map (Prod.mk who) ++ d₁.log later := by
  obtain ⟨d₁, hturn, hlater⟩ := Option.bind_eq_some_iff.mp hplay
  obtain ⟨d₂, hturn', hsound⟩ := h.turn who (h.unfinished hturn) hb
  obtain rfl : d₁ = d₂ := Option.some.inj (hturn.symm.trans hturn')
  refine ⟨d₁, hlater, hsound, ?_⟩
  simp only [log, hturn, h.entry_eq]

/-! ### One before the other -/

def actsOf (who : Party) (log : List (Party × Taken)) : List Taken :=
  log.filterMap fun x => if x.1 = who then some x.2 else none

theorem actsOf_self (who : Party) (acts : List Taken) (log : List (Party × Taken)) :
    actsOf who (acts.map (Prod.mk who) ++ log) = acts ++ actsOf who log := by
  simp only [actsOf, List.filterMap_append, List.filterMap_map, Function.comp_def, if_true,
    List.filterMap_some]

theorem actsOf_other (who : Party) (acts : List Taken) (log : List (Party × Taken)) :
    actsOf who (acts.map (Prod.mk who.other) ++ log) = actsOf who log := by
  have hnone : acts.filterMap (fun _ => (none : Option Taken)) = [] :=
    List.filterMap_eq_nil_iff.mpr fun _ _ => rfl
  simp only [actsOf, List.filterMap_append, List.filterMap_map, Function.comp_def, who.other_ne,
    if_false, hnone, List.nil_append]

theorem mem_of_mem_actsOf {who : Party} {log : List (Party × Taken)} {x : Taken}
    (h : x ∈ actsOf who log) : (who, x) ∈ log := by
  obtain ⟨⟨w, a⟩, hmem, ha⟩ := List.mem_filterMap.mp h
  split at ha
  · next hw =>
    obtain rfl : w = who := hw
    obtain rfl := Option.some.inj ha
    exact hmem
  · cases ha

/-- What the play of two programs on `n` came to, if the one that ended with `a` had run to its end
before the other began. -/
structure Sorted (space : SpaceId) (who : Party) (p : Party → Program α) (n : Machine)
    (log : List (Party × Taken)) (q : Party → Program α) (k : Machine) (a : α) : Prop where
  acts : actsOf who log = (p who).acts space n
  answer : ((p who).alone space n).2 = a
  rest : (q who.other).alone space k = (p who.other).alone space ((p who).alone space n).1

variable {who : Party} {log : List (Party × Taken)} {q : Party → Program α} {k : Machine} {a : α}

theorem Sorted.own (h : Sorted space who (who.set p ((p who).advance space n).1)
      ((p who).advance space n).2 log q k a) :
    Sorted space who p n (((p who).action?.toList.map n.taken).map (Prod.mk who) ++ log) q k a := by
  obtain ⟨hacts, hanswer, hrest⟩ := h
  rw [Party.set_self] at hacts hanswer hrest
  rw [Party.set_other] at hrest
  constructor
  case acts =>
    rw [actsOf_self, hacts]
    exact (Program.acts_advance space (p who) n).symm
  case answer => rw [Program.alone_advance, hanswer]
  case rest => rw [hrest, Program.alone_advance space (p who) n]

theorem Sorted.others (h : Sorted space who
      (who.other.set p ((p who.other).advance space n).1) ((p who.other).advance space n).2 log q k
      a)
    (hp : ∀ w, ∃ depth, (p w).Guarded pid space shape 0 post depth)
    (hs : shape.SameShape n.memory)
    (hapart : ∀ b, (p who.other).action? = some b → ∀ x ∈ actsOf who log,
      (n.taken b).conflicts shape x = false) :
    Sorted space who p n
      (((p who.other).action?.toList.map n.taken).map (Prod.mk who.other) ++ log) q k a := by
  obtain ⟨hacts, hanswer, hrest⟩ := h
  rw [Party.other_set] at hacts hanswer hrest
  rw [Party.set_self] at hrest
  obtain ⟨depth, hwho⟩ := hp who
  obtain ⟨depth', hother⟩ := hp who.other
  have hplain := @hother.plain
  cases hq : p who.other with
  | done b =>
    rw [hq] at hacts hanswer hrest
    exact ⟨(actsOf_other ..).trans hacts, hanswer, hrest.trans (by rw [hq]; rfl)⟩
  | enter pid next =>
    rw [hq] at hacts hanswer hrest
    exact ⟨(actsOf_other ..).trans hacts, hanswer, hrest.trans (by rw [hq]; rfl)⟩
  | act b next =>
    rw [hq] at hacts hanswer hrest hapart
    -- The one does the same before `b`, and the other gets the same from `b` after it.
    have hpassed := passed hwho (hplain (by rw [hq]; rfl)) hs fun x hx =>
      hapart b rfl x (hacts ▸ hx)
    constructor
    case acts => rw [actsOf_other, hacts, hpassed.acts]; rfl
    case answer => rw [hpassed.answer]; exact hanswer
    case rest =>
      rw [hrest, hq]
      show (next (n.touch b).reply).alone space ((p who).alone space (n.touch b).machine).1 =
        (next (((p who).alone space n).1.touch b).reply).alone space
          (((p who).alone space n).1.touch b).machine
      rw [hpassed.reply, hpassed.machine]

/-- If nothing that conflicts comes before what the one does, it may as well have come first. -/
theorem Sound.sorted (h : d.Sound pid space shape base post p depth n)
    (hb : base + 4 < LockTable.countLimit) {turns : List Party} (hplay : d.play turns = some d') :
    ∃ q depth' k, d'.Sound pid space shape base post q depth' k ∧
      ∀ who, Ordered shape who (d.log turns) → ∀ a, q who = .done a →
        Sorted space who p n (d.log turns) q k a := by
  induction turns generalizing d p depth n with
  | nil =>
    obtain rfl := Option.some.inj hplay
    refine ⟨p, depth, n, h, fun who _ a ha => ?_⟩
    constructor <;> rw [ha]
    case acts => rfl
    case answer => rfl
    case rest => rfl
  | cons w later ih =>
    obtain ⟨d₁, hlater, hsound, hlog⟩ := h.play_cons hb hplay
    obtain ⟨q, depth', k, hq, hsorted⟩ := ih hsound hlater
    refine ⟨q, depth', k, hq, fun who hordered a ha => ?_⟩
    rw [hlog] at hordered ⊢
    obtain ⟨-, hafter, hcross⟩ := List.pairwise_append.mp hordered
    have hthen := hsorted who hafter a ha
    rcases w.eq_or_eq_other who with rfl | rfl
    · exact hthen.own
    · refine hthen.others (fun w => ⟨depth w, (h.follows w).guarded⟩) h.shape fun b hb x hx => ?_
      have hmem : (who.other, n.taken b) ∈
          ((p who.other).action?.toList.map n.taken).map (Prod.mk who.other) := by simp [hb]
      exact hcross _ hmem _ (mem_of_mem_actsOf hx) rfl rfl

end Duet

end Paging
